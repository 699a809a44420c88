import ListenerRegistry.Text.Quoted

/-!
# Sections and their monitor

A registry marks the stretches in which its index and its storage may
disagree. Such a stretch is a *section*; a monitor lets one section be open at
a time and refuses a second one, naming both.
-/

namespace ListenerRegistry

/-- A broken promise inside the library, as opposed to an error a caller may
expect. -/
inductive Fault where
  /-- A section was requested while another one was open. -/
  | reentered (attempted current : String)
  /-- A section was closed that was not open. -/
  | closedTwice
  /-- A stored entry was missing from the index. -/
  | unindexed
  /-- A retaining step met more entries than there were when it began. -/
  | overrun
deriving DecidableEq, Repr

def Fault.message : Fault → String
  | reentered attempted current =>
      "reentrant `" ++ attempted ++ "` while `" ++ current ++
        "` is in progress on a listener set"
  | closedTwice => "a section was closed that is not open"
  | unindexed => "stored listener must be indexed"
  | overrun => "attempt to subtract with overflow"

/-- The name of the section that is open, if one is. -/
structure Monitor where
  active : Option String
deriving DecidableEq, Repr

namespace Monitor

/-- A monitor with no section open. -/
def idle : Monitor := ⟨none⟩

instance : Inhabited Monitor := ⟨idle⟩

/-- Opens the section `name`, or refuses because one is open. -/
def enter (m : Monitor) (name : String) : Except Fault Monitor :=
  match m.active with
  | some current => .error (.reentered name current)
  | none => .ok ⟨some name⟩

/-- Closes the section that is open. -/
def leave (m : Monitor) : Except Fault Monitor :=
  match m.active with
  | some _ => .ok idle
  | none => .error .closedTwice

@[simp] theorem enter_idle (name : String) : idle.enter name = .ok ⟨some name⟩ := rfl

@[simp] theorem enter_active (current name : String) :
    (Monitor.mk (some current)).enter name = .error (.reentered name current) := rfl

@[simp] theorem leave_active (current : String) :
    (Monitor.mk (some current)).leave = .ok idle := rfl

@[simp] theorem leave_idle : idle.leave = .error .closedTwice := rfl

/-- The state of the monitor as text. -/
def render (m : Monitor) : String :=
  let active := match m.active with
    | none => "None"
    | some name => "Some(" ++ Text.quoted name ++ ")"
  "ReentrancyCheck \x7b active: Cell \x7b value: " ++ active ++
    " \x7d, _nosend: PhantomData<*mut ()> \x7d"

end Monitor

end ListenerRegistry
