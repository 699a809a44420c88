import ListenerRegistry.Machine.Run

/-!
# Reports

A session performs steps one after the other and reports what each of them
answered and changed. In the end it drops everything the registers hold. A fault
ends a session on the spot, and there is no report then.
-/

namespace ListenerRegistry

/-- How much of the journal a report shows. -/
inductive Detail where
  /-- Every event. -/
  | full
  /-- No counting, no hashing, and no traces in the log. -/
  | summary
deriving DecidableEq, Repr

/-- Whether a report shows an event. Transfers only show in the counts. -/
def Detail.shows : Detail → Event → Bool
  | _, .transfer _ _ => false
  | .full, _ => true
  | .summary, .incref _ | .summary, .decref _ | .summary, .hash _ => false
  | .summary, .log m => m.level == .debug
  | .summary, _ => true

/-- What a step did. -/
structure StepReport where
  answer : Answer
  events : List Event
  /-- The objects whose count changed, with the new count. -/
  changes : List (ObjectId × Int)
  /-- The sizes of the reported registries. -/
  sizes : List Nat

/-- How many registers of each kind a session reports on and empties in the
end. -/
structure Extent where
  handles : Nat
  keys : Nat
  registries : Nat
deriving DecidableEq, Repr

namespace World

/-- The reference counts of all objects. -/
def counts (w : World) : List Int :=
  w.objects.map ForeignObject.refs

/-- The objects whose count differs between two worlds, with the count in the
second. -/
def changedCounts (before after : World) : List (ObjectId × Int) :=
  (List.range after.objects.length).filterMap fun o =>
    if before.count o = after.count o then none else some (o, after.count o)

/-- The events of the second world that the first one does not have, oldest
first. -/
def eventsSince (before after : World) : List Event :=
  (after.journal.take (after.journal.length - before.journal.length)).reverse

end World

/-- The report on a step that led from one world to another. -/
def StepReport.between (detail : Detail) (extent : Extent) (before after : World) : StepReport where
  answer := after.answer
  events := (World.eventsSince before after).filter detail.shows
  changes := World.changedCounts before after
  sizes := (List.range extent.registries).map fun s => (after.registry s).size

namespace Session

/-- Performs a step to its end. -/
def perform (p : Program) (w : World) (s : Step) : Machine :=
  (Machine.start w s).run p

/-- Performs a step and reports on it, unless there is a fault. -/
def report (p : Program) (detail : Detail) (extent : Extent) (w : World) (s : Step) :
    Except Fault (StepReport × World) :=
  let m := perform p w s
  match m.fault with
  | some fault => .error fault
  | none => .ok (.between detail extent w m.world, m.world)

/-- Performs steps in order and reports on each. -/
def reports (p : Program) (detail : Detail) (extent : Extent) (w : World) :
    List Step → Except Fault (List StepReport × World)
  | [] => .ok ([], w)
  | s :: rest => do
      let (first, w) ← report p detail extent w s
      let (others, w) ← reports p detail extent w rest
      return (first :: others, w)

/-- The steps that drop what the registers hold: handles, keys, the hash set,
registries. -/
def teardown (extent : Extent) : List Step :=
  (List.range extent.handles).map (fun h => .op (.handle (.drop h))) ++
  (List.range extent.keys).map (fun k => .op (.key (.drop k))) ++
  [.op (.keySet .drain)] ++
  (List.range extent.registries).map (fun s => .op (.registry (.discard s)))

end Session

end ListenerRegistry
