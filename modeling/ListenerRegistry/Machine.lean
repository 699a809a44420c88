import ListenerRegistry.Operation.Handle
import ListenerRegistry.Operation.Host
import ListenerRegistry.Operation.Key
import ListenerRegistry.Operation.Registry

/-!
# The machine

The machine is a world and a stack of jobs. One turn carries out the job on
top, and if that calls the host, pushes the steps of the hook that the host
runs. A hook is running while the mark of its end is on the stack, and a hook
that is running is not entered again.
-/

namespace ListenerRegistry

/-- Carries out an operation up to its first call. -/
def Op.run (w : World) : Op → Except Fault Outcome
  | .handle op => .ok (op.run w)
  | .host op => .ok (op.run w)
  | .key op => .ok (op.run w)
  | .keySet op => .ok (op.run w)
  | .registry op => op.run w

namespace Job

/-- Carries out one job. -/
def run (w : World) : Job → Except Fault Outcome
  | .perform (.op op) => op.run w
  | .perform (.batch []) => .ok (.say w (.batch []))
  | .perform (.batch (s :: rest)) => .ok { world := w, jobs := [.perform s, .gather rest []] }
  | .release none => .ok { world := w }
  | .release (some o) =>
      let w := (w.adjust o (-1)).emit (.decref o)
      if w.count o = 0 then .ok { world := w.emit (.collect o), call := some ⟨.collect, o⟩ }
      else .ok { world := w }
  | .install h new => .ok { world := (w.abandon (w.handle h)).setHandle h new }
  | .ask use =>
      match use.probe.handle w with
      | none => use.resume w (.ok 0)
      | some o =>
          .ok { world := w.emit (.hash o), call := some ⟨.hash, o⟩, jobs := [.hashed o use] }
  | .hashed o use =>
      use.resume (w.modifyObject o ForeignObject.countHash) (w.hashOutcome o)
  | .screen s => RegistryOp.screen w s
  | .log m => .ok { world := w.log m }
  | .answer a => .ok { world := { w with answer := a } }
  | .answerCount o => .ok { world := { w with answer := .count (w.count o) } }
  | .record => .ok { world := w.emit (.answered w.answer) }
  | .gather rest answers =>
      let answers := answers ++ [w.answer]
      match rest with
      | [] => .ok { world := { w with answer := .batch answers } }
      | s :: rest => .ok { world := w, jobs := [.perform s, .gather rest answers] }
  | .leave hook => .ok { world := w.emit (.leave hook) }

/-- Whether the job is the end mark of the hook. -/
def marks (hook : Hook) : Job → Bool
  | .leave h => h == hook
  | _ => false

end Job

/-- A world, the jobs still to do, and the fault that stopped the machine. -/
structure Machine where
  world : World
  jobs : List Job
  fault : Option Fault := none

namespace Machine

/-- The machine that is about to perform a step. -/
def start (w : World) (s : Step) : Machine := { world := w, jobs := [.perform s] }

/-- The hook runs as long as its end mark waits. -/
def running (hook : Hook) (jobs : List Job) : Bool :=
  jobs.any (Job.marks hook)

/-- The steps of a hook, each followed by a record of its answer, and the end
mark. -/
def body (hook : Hook) (script : List Step) : List Job :=
  script.flatMap (fun s => [.perform s, .record]) ++ [.leave hook]

/-- Lets the host run a hook before the jobs that wait. An absent hook does
nothing, and neither does one that is running. -/
def enter (p : Program) (w : World) (hook : Hook) (jobs : List Job) : Machine :=
  match p.script? hook with
  | none => { world := w, jobs }
  | some script =>
      if running hook jobs then { world := w, jobs }
      else { world := w.emit (.enter hook), jobs := body hook script ++ jobs }

/-- Goes on after a stretch of library code. -/
def proceed (p : Program) (out : Outcome) (rest : List Job) : Machine :=
  match out.call with
  | none => { world := out.world, jobs := out.jobs ++ rest }
  | some hook => enter p out.world hook (out.jobs ++ rest)

/-- One turn, unless the machine has stopped. -/
def turn (p : Program) (m : Machine) : Option Machine :=
  match m.fault, m.jobs with
  | none, job :: rest =>
      match job.run m.world with
      | .ok out => some (proceed p out rest)
      | .error fault => some { m with fault := some fault }
  | _, _ => none

end Machine

end ListenerRegistry
