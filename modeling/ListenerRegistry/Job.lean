import ListenerRegistry.World

/-!
# Jobs

Foreign code can run whenever an object is hashed or loses its last reference,
and it may run any step. So what the library still has to do when it calls out
is data: a list of jobs, each a stretch of library code with no call in the
middle. A job that is waiting owns the handles it mentions.
-/

namespace ListenerRegistry

/-- A retaining step under way: the number of entries when it began, the slots
not visited yet, the number of questions asked, and the entries to remove, last
one first. -/
structure Screening where
  registry : Nat
  keep : Keep
  total : Nat
  pending : List Nat
  asked : Nat
  doomed : List ListenerId
deriving DecidableEq, Repr

/-- Records the decision about the entry `id`. -/
def Screening.judge (s : Screening) (id : ListenerId) (keep : Bool) : Screening :=
  if keep then s else { s with doomed := id :: s.doomed }

@[simp] theorem Screening.judge_pending (s : Screening) (id : ListenerId) (keep : Bool) :
    (s.judge id keep).pending = s.pending := by
  cases keep <;> rfl

@[simp] theorem Screening.judge_keep (s : Screening) (id : ListenerId) (keep : Bool) :
    (s.judge id keep).keep = s.keep := by
  cases keep <;> rfl

@[simp] theorem Screening.judge_asked (s : Screening) (id : ListenerId) (keep : Bool) :
    (s.judge id keep).asked = s.asked := by
  cases keep <;> rfl

@[simp] theorem Screening.judge_registry (s : Screening) (id : ListenerId) (keep : Bool) :
    (s.judge id keep).registry = s.registry := by
  cases keep <;> rfl

theorem Screening.length_judge_doomed (s : Screening) (id : ListenerId) (keep : Bool) :
    (s.judge id keep).doomed.length ≤ s.doomed.length + 1 := by
  cases keep <;> simp [judge]

/-- What an identity hash was asked for. -/
inductive HashUse where
  /-- To answer it. -/
  | answer (probe : Grip)
  /-- To compare the handle in register `a` with the one in `b`. -/
  | compareWith (a b : Nat)
  /-- To compare what the first handle gave with the handle in register `b`. -/
  | compareTo (first : HashOutcome) (b : Nat)
  | makeKey (k : Nat) (h : Handle)
  | insert (s : Nat) (h : Handle) (save : Option Nat)
  | find (s : Nat) (probe : Grip) (save : Option Nat)
  | contains (s : Nat) (probe : Grip)
  | remove (s : Nat) (probe : Grip) (dest : Option Nat)
  /-- To decide about the entry `id`. -/
  | screen (bound : UInt64) (id : ListenerId) (s : Screening)

namespace HashUse

/-- Where the handle is that gets hashed. -/
def probe : HashUse → Grip
  | answer probe | find _ probe _ | contains _ probe | remove _ probe _ => probe
  | compareWith a _ => .register a
  | compareTo _ b => .register b
  | makeKey _ h | insert _ h _ => .fresh h
  | screen _ id s => .entry s.registry id

/-- The handle that the operation owns while the hash is computed. -/
def owned (use : HashUse) : Handle := use.probe.owned

end HashUse

inductive Job where
  | perform (step : Step)
  | release (h : Handle)
  /-- Write a handle to register `h` over whatever is there. -/
  | install (h : Nat) (new : Handle)
  /-- Ask for the hash of what the probe refers to now. -/
  | ask (use : HashUse)
  /-- The hash function of `o` has run its hook and is about to answer. -/
  | hashed (o : ObjectId) (use : HashUse)
  | screen (s : Screening)
  | log (m : LogMessage)
  | answer (a : Answer)
  /-- Answer the reference count of `o` as it is now. -/
  | answerCount (o : ObjectId)
  /-- Note the answer of a hook's step. -/
  | record
  /-- Collect the answer of a batch's step and go on with the `rest`. -/
  | gather (rest : List Step) (answers : List Answer)
  /-- The hook has run its last step. -/
  | leave (hook : Hook)

/-- What a stretch of library code comes to: the world after it, the hook that
its last action calls, and the jobs that follow. -/
structure Outcome where
  world : World
  call : Option Hook := none
  jobs : List Job := []

namespace Outcome

/-- Nothing but an answer. -/
def say (w : World) (a : Answer) : Outcome :=
  { world := w, jobs := [.answer a] }

/-- Puts a handle in register `h`, releases what was there, and goes on with
`jobs`. -/
def put (w : World) (h : Nat) (new : Handle) (jobs : List Job) : Outcome :=
  { world := w.setHandle h new, jobs := .release (w.handle h) :: jobs }

/-- Puts a key in register `k`, releases what was there, and goes on with
`jobs`. -/
def putKey (w : World) (k : Nat) (new : Option Key) (jobs : List Job) : Outcome :=
  { world := w.setKey k new
    jobs := .release ((w.key? k).bind Key.handle) :: jobs }

/-- Hands a handle to register `dest`, or releases it if there is none, and goes
on with `jobs`. -/
def deliver (w : World) (dest : Option Nat) (h : Handle) (jobs : List Job) : Outcome :=
  match dest with
  | some r => put w r h jobs
  | none => { world := w, jobs := .release h :: jobs }

end Outcome

end ListenerRegistry
