import ListenerRegistry.Machine.Termination

/-!
# Running the machine

A run turns the machine until it stops. It needs no bound: recursion follows
the proof that the machine cannot turn for ever.
-/

namespace ListenerRegistry.Machine

/-- A machine together with the program it runs under. -/
structure Configuration (p : Program) where
  machine : Machine

/-- Each turn leads to a smaller configuration. -/
instance (p : Program) : WellFoundedRelation (Configuration p) where
  rel a b := Next p a.machine b.machine
  wf := InvImage.wf Configuration.machine ⟨accessible p⟩

/-- The machine after its last turn. -/
def run (p : Program) (m : Machine) : Machine :=
  match _next : m.turn p with
  | some next => run p next
  | none => m
termination_by (⟨m⟩ : Configuration p)
decreasing_by exact _next

/-- The machine after `n` turns, or after fewer if it stops before. -/
def turns (p : Program) : Nat → Machine → Machine
  | 0, m => m
  | n + 1, m =>
      match m.turn p with
      | some next => turns p n next
      | none => m

/-- `Reaches p a b` says that some turns lead from `a` to `b`. -/
inductive Reaches (p : Program) : Machine → Machine → Prop where
  | refl (m : Machine) : Reaches p m m
  | turn {a b c : Machine} : Reaches p a b → b.turn p = some c → Reaches p a c

/-- The machine has stopped: no job waits, or there was a fault. -/
def Stopped (m : Machine) : Prop := m.jobs = [] ∨ m.fault ≠ none

theorem turn_eq_none_iff {p : Program} {m : Machine} : m.turn p = none ↔ m.Stopped := by
  obtain ⟨w, jobs, fault⟩ := m
  cases fault with
  | some f => simp [turn, Stopped]
  | none =>
    cases jobs with
    | nil => simp [turn, Stopped]
    | cons t jobs =>
      simp only [turn, Stopped]
      split <;> simp

theorem run_of_turn {p : Program} {m next : Machine} (h : m.turn p = some next) :
    m.run p = next.run p := by
  rw [run]
  split
  · rename_i h'
    rw [h] at h'
    injection h' with h'
    rw [h']
  · rename_i h'
    rw [h] at h'
    cases h'

theorem run_of_stopped {p : Program} {m : Machine} (h : m.turn p = none) : m.run p = m := by
  rw [run]
  split
  · rename_i h'
    rw [h] at h'
    cases h'
  · rfl

theorem Reaches.trans {p : Program} {a b c : Machine} (hab : Reaches p a b)
    (hbc : Reaches p b c) : Reaches p a c := by
  induction hbc with
  | refl => exact hab
  | turn _ h ih => exact ih.turn h

/-- A run ends where some turns lead to. -/
theorem reaches_run (p : Program) (m : Machine) : Reaches p m (m.run p) := by
  induction accessible p m with
  | intro m _ ih =>
    cases h : m.turn p with
    | none =>
      rw [run_of_stopped h]
      exact .refl m
    | some next =>
      rw [run_of_turn h]
      exact (Reaches.turn (.refl m) h).trans (ih next h)

/-- What holds at the start and survives every turn holds wherever turns lead. -/
theorem Reaches.preserves {p : Program} {P : Machine → Prop}
    (step : ∀ m next, P m → m.turn p = some next → P next) {a b : Machine}
    (h : Reaches p a b) (ha : P a) : P b := by
  induction h with
  | refl => exact ha
  | turn _ h ih => exact step _ _ ih h

/-- Enough turns give the run. -/
theorem run_eq_turns {p : Program} : ∀ (n : Nat) {m : Machine},
    (m.turns p n).turn p = none → m.run p = m.turns p n
  | 0, _, h => run_of_stopped h
  | n + 1, m, h => by
    unfold turns at h ⊢
    cases hm : m.turn p with
    | none => exact run_of_stopped hm
    | some next =>
      rw [hm] at h
      rw [run_of_turn hm]
      exact run_eq_turns n h

/-- A run ends in a machine that has stopped. -/
theorem stopped_run (p : Program) (m : Machine) : (m.run p).Stopped := by
  induction accessible p m with
  | intro m _ ih =>
    cases h : m.turn p with
    | none => rw [run_of_stopped h]; exact turn_eq_none_iff.1 h
    | some next => rw [run_of_turn h]; exact ih next h

/-! ## Controls -/

namespace Control

/-- A world with one object, hashed by its address and held once. -/
def world : World := .init [.plain 0x1000 1 (.always .identity)]

def insert : Step := .op (.registry (.insert 0 (.fresh (some 0)) none))

def quiet : Program := ⟨[⟨none, none⟩]⟩

/-- The hash function of the object registers the object. -/
def eager : Program := ⟨[⟨some [insert], none⟩]⟩

def isDuplicate : Answer → Bool
  | .failed .duplicateListener => true
  | _ => false

/-- A registered object is held once more. -/
example : ((start world insert).turns quiet 9).world.count 0 = 2 := by decide +kernel

/-- The inner registration comes first, and the outer one is refused. -/
example : isDuplicate ((start world insert).turns eager 11).world.answer = true := by
  decide +kernel

/-- The refused handle is released: one reference is the host's, one is the
entry's. -/
example : ((start world insert).turns eager 11).world.count 0 = 2 := by decide +kernel

/-- Puts a key for the object in an otherwise empty registry, and has the
registry retain what hashes to nothing. -/
def retaining : Step :=
  .batch [.op (.key (.make 0 (.fresh (some 0)))), .op (.registry (.clear 0)),
    .op (.registry (.insertKey 0 0 none)), .op (.registry (.retain 0 (.hashBelow 0)))]

/-- The object registers another one when it is hashed. -/
def inviting : Program :=
  ⟨[⟨some [.op (.registry (.insert 0 (.fresh (some 1)) none))], none⟩, ⟨none, none⟩]⟩

/-- A world with two objects, each held once. -/
def pair : World :=
  .init [.plain 0x1000 1 (.always .identity), .plain 0x2000 1 (.always .identity)]

/-- An entry in a slot that is new is not asked about. -/
example : ((start pair retaining).turns inviting 60).world.count 0 = 1 := by decide +kernel

example : ((start pair retaining).turns inviting 60).world.count 1 = 2 := by decide +kernel

/-- Takes over the reference on the first object and assigns null over it. -/
def assignment : Step :=
  .batch [.op (.handle (.adopt 0 (some 0))), .op (.handle (.assign 0 1))]

/-- The finalizer of the first object leaves a handle on the second one in the
register that is being assigned. -/
def meddling : Program :=
  ⟨[⟨none, some [.op (.handle (.peek 0)), .op (.handle (.borrow 0 (some 1)))]⟩, ⟨none, none⟩]⟩

/-- What the finalizer leaves is overwritten, and its reference stays counted. -/
example : ((start pair assignment).turns meddling 30).world.handle 0 = none := by
  decide +kernel

example : ((start pair assignment).turns meddling 30).world.count 1 = 2 := by decide +kernel

end Control

end ListenerRegistry.Machine
