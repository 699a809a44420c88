/-!
# Generational slots

Values live in numbered slots. A slot carries a version that moves on whenever
the slot is filled or vacated, and an id names a slot together with the version
it was filled at. So an id stops resolving once its value is gone, and stays so
when the slot is used again.

Vacated slots are used again last-vacated-first; a new slot is appended only
when none is vacant.
-/

namespace ListenerRegistry

/-- A slot number, counted from 1, and a version. -/
structure SlotId where
  index : Nat
  version : UInt32
deriving DecidableEq, Repr

structure Slot (α : Type) where
  version : UInt32
  content : Option α
deriving DecidableEq, Repr

/-- The slots in order, the positions of the vacant ones (the next to be used
first), and the number of values stored. -/
structure SlotTable (α : Type) where
  slots : List (Slot α)
  vacant : List Nat
  size : Nat
deriving DecidableEq, Repr

namespace Slot

variable {α : Type}

/-- Stores a value under the next version. -/
def fill (s : Slot α) (a : α) : Slot α := ⟨s.version + 1, some a⟩

/-- Drops the value and moves to the next version. -/
def vacate (s : Slot α) : Slot α := ⟨s.version + 1, none⟩

/-- Vacates the slot if it is occupied. -/
def drain (s : Slot α) : Slot α :=
  match s.content with
  | some _ => s.vacate
  | none => s

end Slot

namespace SlotTable

variable {α : Type}

def empty : SlotTable α := ⟨[], [], 0⟩

instance : Inhabited (SlotTable α) := ⟨empty⟩

/-- The slot with number `i`. -/
def slotAt? (m : SlotTable α) (i : Nat) : Option (Slot α) :=
  if i = 0 then none else m.slots[i - 1]?

/-- The numbers of all slots, in order. -/
def numbers (m : SlotTable α) : List Nat := List.range' 1 m.slots.length

/-- The value in slot `i` with its present id, unless the slot is vacant. -/
def entryAt? (m : SlotTable α) (i : Nat) : Option (SlotId × α) :=
  (m.slotAt? i).bind fun s => s.content.map fun a => (⟨i, s.version⟩, a)

/-- The value stored under `id`, unless the id is stale. -/
def get? (m : SlotTable α) (id : SlotId) : Option α :=
  match m.slotAt? id.index with
  | some s => if s.version = id.version then s.content else none
  | none => none

/-- Stores a value in the slot vacated last, or in a new one. -/
def insert (m : SlotTable α) (a : α) : SlotId × SlotTable α :=
  match m.vacant with
  | i :: vacant =>
      let version := (m.slots[i]?).elim 0 Slot.version
      (⟨i + 1, version + 1⟩, ⟨m.slots.modify i (·.fill a), vacant, m.size + 1⟩)
  | [] => (⟨m.slots.length + 1, 1⟩, ⟨m.slots ++ [⟨1, some a⟩], [], m.size + 1⟩)

/-- Takes out the value stored under `id`, unless the id is stale. -/
def remove (m : SlotTable α) (id : SlotId) : Option (α × SlotTable α) :=
  (m.get? id).map fun a =>
    let i := id.index - 1
    (a, ⟨m.slots.modify i Slot.vacate, i :: m.vacant, m.size - 1⟩)

/-- The occupied slots of a list whose first slot has number `i`. -/
def occupied : Nat → List (Slot α) → List (SlotId × α)
  | _, [] => []
  | i, s :: slots =>
      match s.content with
      | some a => (⟨i, s.version⟩, a) :: occupied (i + 1) slots
      | none => occupied (i + 1) slots

/-- The stored values with their ids, in the order of their slots. -/
def entries (m : SlotTable α) : List (SlotId × α) :=
  occupied 1 m.slots

theorem occupied_eq_filterMap (m : SlotTable α) (rest : List (Slot α)) :
    ∀ before : List (Slot α), m.slots = before ++ rest →
      occupied (before.length + 1) rest =
        (List.range' (before.length + 1) rest.length).filterMap m.entryAt? := by
  induction rest with
  | nil => intro before _; rfl
  | cons s rest ih =>
    intro before h
    have tail := ih (before ++ [s]) (by simp [h])
    simp only [List.length_append, List.length_singleton] at tail
    have head : m.entryAt? (before.length + 1) =
        s.content.map fun a => (⟨before.length + 1, s.version⟩, a) := by
      simp [entryAt?, slotAt?, h]
    rw [List.length_cons, List.range'_succ, List.filterMap_cons, head, ← tail]
    cases hc : s.content <;> simp [occupied, hc]

/-- Visiting the slots in order gives the entries. -/
theorem entries_eq_filterMap (m : SlotTable α) : m.entries = m.numbers.filterMap m.entryAt? :=
  occupied_eq_filterMap m m.slots [] rfl

/-- Vacates every occupied slot, in order, and hands out the values. -/
def drain (m : SlotTable α) : List α × SlotTable α :=
  let entries := m.entries
  (entries.map (·.2),
    { slots := m.slots.map Slot.drain
      vacant := (entries.map (·.1.index - 1)).reverse ++ m.vacant
      size := 0 })

end SlotTable

end ListenerRegistry
