/-!
# Register banks

A bank gives every number a register. All but finitely many still hold the
default, and only the others take up room.
-/

namespace ListenerRegistry

structure Bank (α : Type) where
  cells : List α
deriving DecidableEq, Repr

namespace Bank

variable {α : Type} [Inhabited α]

/-- The bank in which every register holds the default. -/
def empty : Bank α := ⟨[]⟩

instance : Inhabited (Bank α) := ⟨empty⟩

/-- What register `r` holds. -/
def read (b : Bank α) (r : Nat) : α :=
  (b.cells[r]?).getD default

/-- Writes into a list of cells, filling a gap with defaults. -/
def writeCells : List α → Nat → α → List α
  | [], 0, a => [a]
  | [], r + 1, a => default :: writeCells [] r a
  | _ :: cells, 0, a => a :: cells
  | c :: cells, r + 1, a => c :: writeCells cells r a

/-- Puts `a` into register `r`. -/
def write (b : Bank α) (r : Nat) (a : α) : Bank α :=
  ⟨writeCells b.cells r a⟩

@[simp] theorem read_empty (r : Nat) : (empty : Bank α).read r = default := by
  simp [read, empty]

theorem getD_writeCells_self : ∀ (cells : List α) (r : Nat) (a : α),
    ((writeCells cells r a)[r]?).getD default = a
  | [], 0, _ => rfl
  | [], r + 1, a => by simpa [writeCells] using getD_writeCells_self [] r a
  | _ :: _, 0, _ => rfl
  | _ :: cells, r + 1, a => by simpa [writeCells] using getD_writeCells_self cells r a

theorem getD_writeCells_of_ne : ∀ (cells : List α) (r q : Nat) (a : α), q ≠ r →
    ((writeCells cells r a)[q]?).getD default = (cells[q]?).getD default
  | [], 0, 0, _, h => absurd rfl h
  | [], 0, q + 1, _, _ => by simp [writeCells]
  | [], r + 1, 0, _, _ => by simp [writeCells]
  | [], r + 1, q + 1, a, h => by
      simpa [writeCells] using getD_writeCells_of_ne [] r q a (by omega)
  | _ :: _, 0, 0, _, h => absurd rfl h
  | _ :: _, 0, q + 1, _, _ => by simp [writeCells]
  | _ :: _, r + 1, 0, _, _ => by simp [writeCells]
  | _ :: cells, r + 1, q + 1, a, h => by
      simpa [writeCells] using getD_writeCells_of_ne cells r q a (by omega)

@[simp] theorem read_write_self (b : Bank α) (r : Nat) (a : α) :
    (b.write r a).read r = a :=
  getD_writeCells_self b.cells r a

theorem read_write_of_ne (b : Bank α) {r q : Nat} (a : α) (h : q ≠ r) :
    (b.write r a).read q = b.read q :=
  getD_writeCells_of_ne b.cells r q a h

@[simp] theorem read_write (b : Bank α) (r q : Nat) (a : α) :
    (b.write r a).read q = if q = r then a else b.read q := by
  by_cases h : q = r
  · rw [h, read_write_self, if_pos rfl]
  · rw [read_write_of_ne b a h, if_neg h]

end Bank

end ListenerRegistry
