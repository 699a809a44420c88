import ListenerRegistry.Bank
import ListenerRegistry.Monitor

/-!
# A monitor under a sequence of requests

Sections are obtained from one monitor, kept in registers and closed later, in
any order. A refused request leaves both the monitor and the registers as they
were.
-/

namespace ListenerRegistry

/-- A section that was opened and not closed yet, with the name it was opened
under. -/
structure Section where
  name : String
deriving DecidableEq, Repr

inductive Monitor.Request where
  /-- Open a section and keep it in register `r`. -/
  | enter (r : Nat) (name : String)
  /-- Close the section in register `r`. -/
  | leave (r : Nat)
deriving DecidableEq, Repr

inductive Monitor.Reply where
  | entered
  | left
  /-- There was no section in the register. -/
  | empty
  | refused (fault : Fault)
deriving DecidableEq, Repr

/-- One monitor and the registers that keep its sections. -/
structure Monitor.Session where
  monitor : Monitor
  held : Bank (Option Section)
deriving DecidableEq, Repr

namespace Monitor.Session

def start : Session := ⟨idle, .empty⟩

/-- Serves one request. -/
def serve (s : Session) : Request → Reply × Session
  | .enter r name =>
      match s.monitor.enter name with
      | .error fault => (.refused fault, s)
      | .ok monitor => (.entered, ⟨monitor, s.held.write r (some ⟨name⟩)⟩)
  | .leave r =>
      match s.held.read r with
      | none => (.empty, s)
      | some _ =>
          match s.monitor.leave with
          | .error fault => (.refused fault, { s with held := s.held.write r none })
          | .ok monitor => (.left, ⟨monitor, s.held.write r none⟩)

/-- Serves the requests in order; each reply comes with the monitor after it. -/
def run (s : Session) : List Request → List (Reply × Monitor)
  | [] => []
  | q :: rest =>
      let (reply, s) := s.serve q
      (reply, s.monitor) :: s.run rest

end Monitor.Session

end ListenerRegistry
