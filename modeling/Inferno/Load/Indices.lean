import Inferno.Lib.Raise
import Inferno.Load.Parsemod

namespace Inferno.Load

open Lib Dis

/-- The index is one of the table's `hsize`, or of the array. -/
def Access.Inside (hsize : Int) : Access → Prop
  | .type i => 0 ≤ i ∧ i < hsize
  | .data v len => v < len

/-- The values that go through the tests of `parsemod` and are no indices: an id that is `hsize` or negative, the type 0
where there is none, an array type that is `hsize`, the length of an array as an index, a type of a link that is neither
-1 nor in the table, one of a handler that is not in the table while the `n` left over is not -1, and an entry type that
is negative. -/
def Field.Good (hsize : Int) : Field → Prop
  | .desc id => 0 ≤ id ∧ id ≠ hsize
  | .mp => hsize ≠ 0
  | .array v => v ≠ hsize
  | .index v len => v ≠ len
  | .link de => de = -1 ∨ 0 ≤ de ∧ de < hsize
  | .handler n descid => n = -1 ∨ 0 ≤ descid ∧ descid < hsize
  | .entry isize start entryt => start < isize → entryt < hsize → 0 ≤ entryt

/-- All indices so far are inside exactly when all fields are good. -/
def Agrees (hsize : Int) (s : St) : Prop :=
  (∀ a ∈ s.accesses, a.Inside hsize) ↔ ∀ f ∈ s.fields, f.Good hsize

/-- From any state in which they agree to another. -/
structure Sound {α : Type} (hsize : Int) (m : Parse α) : Prop where
  ends : ∀ s, Agrees hsize s → Ends m s (fun _ t => Agrees hsize t) fun _ => True

namespace Sound

variable {α β : Type} {hsize : Int} {m m' : Parse α} {k : α → Parse β}

theorem pure (a : α) : Sound hsize (Pure.pure a : Parse α) := ⟨fun _ agrees => Ends.pure agrees⟩

theorem throw (e : Fail) : Sound hsize (MonadExcept.throw e : Parse α) := ⟨fun _ _ => Ends.throw trivial⟩

theorem bad (text : String) : Sound hsize (bad text : Parse α) := throw (.bad text)

theorem bind (first : Sound hsize m) (next : ∀ a, Sound hsize (k a)) : Sound hsize (m >>= k) :=
  ⟨fun s agrees => Ends.bind ((first.ends s agrees).imp (fun a t holds => (next a).ends t holds) fun _ _ => trivial)⟩

theorem ite {c : Prop} [Decidable c] (yes : c → Sound hsize m) (no : ¬c → Sound hsize m') :
    Sound hsize (if c then m else m') := by
  split
  · exact yes ‹_›
  · exact no ‹_›

/-- What keeps the indices and the fields. -/
theorem keep (same : ∀ s a t, m s = .ok a t → t.accesses = s.accesses ∧ t.fields = s.fields) : Sound hsize m := by
  refine ⟨fun s agrees => ?_⟩
  unfold Ends
  cases run : m s with
  | ok a t =>
    obtain ⟨accesses, fields⟩ := same s a t run
    have after : Agrees hsize t := by
      unfold Agrees
      rw [accesses, fields]
      exact agrees
    exact after
  | error e t => trivial

theorem isp (code : List UInt8) (f : List UInt8 → Option (α × List UInt8)) : Sound hsize (isp code f) := by
  refine keep fun s a t run => ?_
  unfold Load.isp at run
  split at run
  · cases run
    exact ⟨rfl, rfl⟩
  · nomatch run

theorem advance (n : Int) : Sound hsize (advance n) := by
  refine keep fun s a t run => ?_
  unfold Load.advance at run
  split at run
  · cases run
    exact ⟨rfl, rfl⟩
  · nomatch run

theorem state (f : St → α) : Sound hsize (fun s => .ok (f s) s : Parse α) :=
  keep fun _ _ _ run => by cases run; exact ⟨rfl, rfl⟩

theorem look (f : ByteMem → α) : Sound hsize (look f) := state fun s => f s.mem

theorem change (f : ByteMem → ByteMem) : Sound hsize (change f) :=
  keep fun _ _ _ run => by cases run; exact ⟨rfl, rfl⟩

theorem alloc (f : ByteMem → Option (Nat × ByteMem)) (fail : Fail) : Sound hsize (alloc f fail) := by
  refine keep fun s a t run => ?_
  unfold Load.alloc at run
  split at run
  · cases run
    exact ⟨rfl, rfl⟩
  · nomatch run

/-- The table is used for a field that is good exactly when the index is inside. -/
theorem typeAt {field : Field} {type : Nat} {i : Int} (same : 0 ≤ i ∧ i < hsize ↔ field.Good hsize) :
    Sound hsize (typeAt field type i) := by
  refine ⟨fun s agrees => ?_⟩
  unfold Ends Load.typeAt
  dsimp only
  unfold Agrees
  rw [List.forall_mem_cons, List.forall_mem_cons]
  exact and_congr same agrees

theorem noType {field : Field} (good : field.Good hsize) : Sound hsize (noType field) := by
  refine ⟨fun s agrees => ?_⟩
  unfold Ends Load.noType
  dsimp only
  unfold Agrees
  rw [List.forall_mem_cons]
  exact agrees.trans (and_iff_right good).symm

theorem typeIf {used : Prop} [Decidable used] {field : Field} {type : Nat} {i : Int}
    (same : used → (0 ≤ i ∧ i < hsize ↔ field.Good hsize)) (good : ¬used → field.Good hsize) :
    Sound hsize (typeIf used field type i) := by
  refine ite (fun used => ?_) fun unused => ?_
  · exact bind (typeAt (same used)) fun a => bind (look _) fun pt => pure _
  · exact bind (noType (good unused)) fun _ => pure _

theorem dataAt {ary : Nat} {v len : Int} (most : v ≤ len) : Sound hsize (dataAt ary v len) := by
  refine ⟨fun s agrees => ?_⟩
  unfold Ends Load.dataAt
  dsimp only
  unfold Agrees
  rw [List.forall_mem_cons, List.forall_mem_cons]
  have index : v < len ↔ v ≠ len := by omega
  exact and_congr index agrees

end Sound

section Parsemod

variable {env : Env} {code : List UInt8} {type : Nat} {hsize : Int}

theorem descs_sound (left : Nat) : Sound hsize (descs env code type hsize left) := by
  induction left with
  | zero => exact Sound.pure _
  | succ left ih =>
    refine Sound.bind (Sound.isp _ _) fun id => Sound.ite (fun _ => Sound.bad _) fun low => ?_
    refine Sound.bind (Sound.isp _ _) fun tsz => Sound.bind (Sound.isp _ _) fun tnp => Sound.ite (fun _ => Sound.bad _) fun _ => ?_
    refine Sound.bind (Sound.isp _ _) fun map => Sound.bind (Sound.alloc _ _) fun pt => ?_
    refine Sound.bind (Sound.typeAt ?_) fun a => Sound.bind (Sound.change _) fun _ => ih
    exact and_congr_right fun _ => by omega

theorem modData_sound {dsize : Int} (nonneg : 0 ≤ hsize) : Sound hsize (modData env type dsize) := by
  refine Sound.ite (fun _ => ?_) fun _ => Sound.pure _
  refine Sound.bind (Sound.typeAt ?_) fun a => Sound.bind (Sound.look _) fun pt => Sound.bind (Sound.look _) fun size => ?_
  · show 0 ≤ 0 ∧ 0 < hsize ↔ hsize ≠ 0
    omega
  · exact Sound.ite (fun _ => Sound.bad _) fun _ => Sound.alloc _ _

theorem defb_sound (n si : Nat) : Sound hsize (defb code si n) := by
  induction n generalizing si with
  | zero => exact Sound.pure _
  | succ n ih => exact Sound.bind (Sound.isp _ _) fun _ => Sound.bind (Sound.change _) fun _ => ih _

theorem defw_sound (n si : Nat) : Sound hsize (defw code si n) := by
  induction n generalizing si with
  | zero => exact Sound.pure _
  | succ n ih => exact Sound.bind (Sound.isp _ _) fun _ => Sound.bind (Sound.change _) fun _ => ih _

theorem defl_sound (n si : Nat) : Sound hsize (defl code si n) := by
  induction n generalizing si with
  | zero => exact Sound.pure _
  | succ n ih =>
    exact Sound.bind (Sound.isp _ _) fun _ => Sound.bind (Sound.isp _ _) fun _ => Sound.bind (Sound.change _) fun _ => ih _

theorem defa_sound (si : Nat) : Sound hsize (defa env code type hsize si) := by
  refine Sound.bind (Sound.isp _ _) fun v => Sound.ite (fun _ => Sound.bad _) fun inside => ?_
  refine Sound.bind (Sound.typeAt ?_) fun a => Sound.bind (Sound.look _) fun pt => ?_
  · show 0 ≤ v ∧ v < hsize ↔ v ≠ hsize
    omega
  · refine Sound.bind (Sound.isp _ _) fun v => Sound.bind (Sound.look _) fun size => ?_
    exact Sound.bind (Sound.alloc _ _) fun ary => Sound.bind (Sound.change _) fun _ => Sound.change _

theorem dind_sound (si depth : Nat) : Sound hsize (dind env code si depth) := by
  refine Sound.bind (Sound.look _) fun ary => Sound.bind (Sound.look _) fun t => Sound.ite (fun _ => Sound.bad _) fun _ => ?_
  refine Sound.bind (Sound.isp _ _) fun v => Sound.bind (Sound.look _) fun len => ?_
  exact Sound.ite (fun _ => Sound.bad _) fun inside => Sound.dataAt (by omega)

/-- The induction is on the steps; each item leaves the data section to itself. -/
theorem data_sound (steps addr : Nat) (dastack : List Nat) (n : Int) :
    Sound hsize (data env code type hsize steps addr dastack n) := by
  induction steps generalizing addr dastack n with
  | zero => exact Sound.throw _
  | succ steps ih =>
    refine Sound.bind (Sound.isp _ _) fun sm => Sound.ite (fun _ => Sound.pure _) fun _ => ?_
    refine Sound.bind (Sound.ite (fun _ => Sound.isp _ _) fun _ => Sound.pure _) fun n => Sound.bind (Sound.isp _ _) fun v => ?_
    dsimp only
    split
    · refine Sound.bind (Sound.state _) fun p => Sound.bind (Sound.alloc _ _) fun s => ?_
      exact Sound.bind (Sound.advance _) fun _ => Sound.bind (Sound.change _) fun _ => ih _ _ _
    · exact Sound.bind (defb_sound _ _) fun _ => ih _ _ _
    · exact Sound.bind (defw_sound _ _) fun _ => ih _ _ _
    · exact Sound.bind (defl_sound _ _) fun _ => ih _ _ _
    · exact Sound.bind (defl_sound _ _) fun _ => ih _ _ _
    · exact Sound.bind (defa_sound _) fun _ => ih _ _ _
    · exact Sound.bind (dind_sound _ _) fun next => ih _ _ _
    · split
      · exact Sound.bad _
      · exact ih _ _ _
    · exact Sound.bad _

theorem modName_sound : Sound hsize (modName code) :=
  Sound.bind (Sound.state _) fun _ => Sound.ite (fun _ => Sound.bad _) fun _ => Sound.isp _ _

theorem links_sound (left : Nat) : Sound hsize (links code type left) := by
  induction left with
  | zero => exact Sound.pure _
  | succ left ih =>
    refine Sound.bind (Sound.isp _ _) fun pc => Sound.bind (Sound.isp _ _) fun de => Sound.bind (Sound.isp _ _) fun v => ?_
    refine Sound.bind (Sound.typeIf (fun used => (or_iff_right used).symm) fun none => Or.inl (not_not.mp none)) fun pt => ?_
    · exact Sound.bind (Sound.isp _ _) fun name => Sound.bind ih fun ext => Sound.pure _

theorem imports_sound (left : Nat) : Sound hsize (imports code left) := by
  induction left with
  | zero => exact Sound.pure _
  | succ left ih =>
    exact Sound.bind (Sound.isp _ _) fun sig => Sound.bind (Sound.isp _ _) fun name => Sound.bind ih fun rest => Sound.pure _

theorem ldt_sound (left : Nat) (n : Int) : Sound hsize (ldt code left n) := by
  induction left generalizing n with
  | zero => exact Sound.pure _
  | succ left ih =>
    refine Sound.bind (Sound.isp _ _) fun n => Sound.bind (imports_sound _) fun i1 => ?_
    exact Sound.bind (ih n) fun _ => Sound.pure _

theorem parseLdt_sound (rt n : Int) : Sound hsize (parseLdt code rt n) := by
  refine Sound.ite (fun _ => ?_) fun _ => Sound.pure _
  refine Sound.bind (Sound.isp _ _) fun nl => Sound.bind (ldt_sound _ _) fun found => ?_
  exact Sound.bind (Sound.advance _) fun _ => Sound.pure _

theorem handlers_sound (left : Nat) (n : Int) : Sound hsize (handlers code type left n) := by
  induction left generalizing n with
  | zero => exact Sound.pure _
  | succ left ih =>
    refine Sound.bind (Sound.isp _ _) fun eoff => Sound.bind (Sound.isp _ _) fun pc1 => ?_
    refine Sound.bind (Sound.isp _ _) fun pc2 => Sound.bind (Sound.isp _ _) fun descid => ?_
    refine Sound.bind (Sound.typeIf (fun used => (or_iff_right used).symm) fun none => Or.inl (not_not.mp none)) fun t => ?_
    · refine Sound.bind (Sound.isp _ _) fun n => Sound.bind (Sound.isp _ _) fun etab => ?_
      exact Sound.bind (Sound.isp _ _) fun wild => Sound.bind (ih _) fun htab => Sound.pure _

theorem parseHandlers_sound (rt n : Int) : Sound hsize (parseHandlers code type rt n) := by
  refine Sound.ite (fun _ => ?_) fun _ => Sound.pure _
  refine Sound.bind (Sound.isp _ _) fun nh => Sound.bind (handlers_sound _ _) fun htab => ?_
  exact Sound.bind (Sound.advance _) fun _ => Sound.pure _

theorem parseEntry_sound (isize entry entryt : Int) : Sound hsize (parseEntry type isize hsize entry entryt) := by
  refine Sound.bind (Sound.typeIf (fun used => ?_) fun unused => ?_) fun pt => Sound.pure _
  · exact ⟨fun inside _ _ => inside.1, fun good => ⟨good used.1 used.2, used.2⟩⟩
  · exact fun first second => absurd ⟨first, second⟩ unused

/-- A module that is returned has the `hsize` of its header. -/
theorem body_ends {steps : Nat} {rt ss n isize dsize lsize entry entryt : Int} (nonneg : 0 ≤ hsize) {s : St}
    (agrees : Agrees hsize s) :
    Ends (body env code steps rt ss n isize dsize hsize lsize entry entryt) s
      (fun m t => m.ntype = hsize ∧ Agrees hsize t) fun _ => True := by
  have next {α : Type} {m : Parse α} {k : α → Parse Module} {s : St} (agrees : Agrees hsize s) (sound : Sound hsize m)
      (rest : ∀ a t, Agrees hsize t → Ends (k a) t (fun m t => m.ntype = hsize ∧ Agrees hsize t) fun _ => True) :
      Ends (m >>= k) s (fun m t => m.ntype = hsize ∧ Agrees hsize t) fun _ => True :=
    Ends.bind ((sound.ends s agrees).imp rest fun _ _ => trivial)
  refine next agrees (Sound.isp _ _) fun prog _ agrees => next agrees (Sound.alloc _ _) fun type _ agrees => ?_
  refine next agrees (descs_sound _) fun _ _ agrees => next agrees (modData_sound nonneg) fun origmp _ agrees => ?_
  refine next agrees (data_sound _ _ _ _) fun n _ agrees => next agrees modName_sound fun name _ agrees => ?_
  refine next agrees (links_sound _) fun ext _ agrees => Ends.ite (fun _ => Ends.throw trivial) fun _ => ?_
  refine next agrees (parseLdt_sound _ _) fun ldt _ agrees => next agrees (parseHandlers_sound _ _) fun htab _ agrees => ?_
  refine next agrees (parseEntry_sound _ _ _) fun entry _ agrees => ?_
  exact Ends.ite (fun _ => Ends.throw trivial) fun _ => Ends.pure ⟨rfl, agrees⟩

theorem magic_sound (length : Nat) : Sound hsize (magic env code length) := by
  refine Sound.bind (Sound.isp _ _) fun magic => Sound.ite (fun _ => ?_) fun _ => Sound.ite (fun _ => ?_) fun _ => Sound.bad _
  · refine Sound.bind (Sound.isp _ _) fun siglen => Sound.bind (Sound.state _) fun p => ?_
    refine Sound.ite (fun _ => Sound.bad _) fun _ => Sound.ite (fun _ => Sound.bad _) fun _ => ?_
    exact Sound.bind (Sound.advance _) fun _ => Sound.pure _
  · exact Sound.ite (fun _ => Sound.bad _) fun _ => Sound.pure _

theorem parsemod_ends (steps length : Nat) (mem : ByteMem) :
    Ends (parsemod env code steps length) ⟨0, mem, [], []⟩ (fun m t => Agrees m.ntype t) fun _ => True := by
  have next {α : Type} {m : Parse α} {k : α → Parse Module} {s : St} (agrees : ∀ hsize, Agrees hsize s)
      (sound : ∀ hsize, Sound hsize m)
      (rest : ∀ a t, (∀ hsize, Agrees hsize t) → Ends (k a) t (fun m t => Agrees m.ntype t) fun _ => True) :
      Ends (m >>= k) s (fun m t => Agrees m.ntype t) fun _ => True :=
    Ends.bind ((Ends.all fun hsize => (sound hsize).ends s (agrees hsize)).imp rest fun _ _ => trivial)
  have read (f : List UInt8 → Option (Int × List UInt8)) (hsize : Int) : Sound hsize (isp code f) := Sound.isp code f
  have start (hsize : Int) : Agrees hsize ⟨0, mem, [], []⟩ :=
    iff_of_true (fun _ member => nomatch member) fun _ member => nomatch member
  refine next start (fun _ => magic_sound length) fun n _ agrees => next agrees (read _) fun rt _ agrees => ?_
  refine next agrees (read _) fun ss _ agrees => next agrees (read _) fun isize _ agrees => ?_
  refine next agrees (read _) fun dsize _ agrees => next agrees (read _) fun hsize _ agrees => ?_
  refine next agrees (read _) fun lsize _ agrees => next agrees (read _) fun entry _ agrees => ?_
  refine next agrees (read _) fun entryt _ agrees => Ends.ite (fun _ => Ends.throw trivial) fun sizes => ?_
  refine (body_ends (by omega) (agrees hsize)).imp (fun m t ends => ?_) fun _ _ => trivial
  rw [ends.1]
  exact ends.2

end Parsemod

/-- A heap that gives out one address. -/
def smallEnv : Env where
  verifysigner _ _ := false
  mustbesigned := false
  malloc mem _ := some (4096, mem)
  dtype mem _ _ := some (8192, mem)
  heapz mem _ := some (12288, mem)
  nheap mem _ := some (16384, mem)
  initarray mem _ _ := mem
  c2string mem _ _ := some (20480, mem)
  tarray := 24576
  cflag := false
  dontcompile := false
  compile := true
  n := 0

/-- A module with one descriptor of the given id, and nothing else. -/
def oneDesc (id : UInt8) : List UInt8 := [0xC0, 0x0C, 0x80, 0x30, 0, 0, 0, 0, 1, 0, 0, 0, id, 0, 0, 0, 0]

/-- What a load that returns a module has read and used. -/
def logged : EStateM.Result Fail St Module → Option (Int × List Field × List Access)
  | .ok m t => some (m.ntype, t.fields, t.accesses)
  | .error .. => none

theorem exists_of_logged {r : EStateM.Result Fail St Module} {n : Int} {fields : List Field} {accesses : List Access}
    (log : logged r = some (n, fields, accesses)) :
    ∃ m t, r = .ok m t ∧ m.ntype = n ∧ t.fields = fields ∧ t.accesses = accesses := by
  cases r with
  | error e t => nomatch log
  | ok m t =>
    cases log
    exact ⟨m, t, rfl, rfl, rfl, rfl⟩

end Inferno.Load
