import ListenerRegistry.Proofs.Exactness
import ListenerRegistry.Proofs.Journal

/-!
# The calls that operations make

What an operation on a registry calls the host for is settled by the operation, by what it
is about and by its answer. It asks for the hash of what it is given, once, and never for that
of an entry. It acquires nothing. It releases what it was given if it refuses it, and what it
throws out, once each and in order; a handle that it takes out is handed over as it is.

The steps here also make the handles that an operation is given, and keep or drop those that
it hands over. The calls that come of that are told apart.
-/

namespace ListenerRegistry

/-! ## The calls of a turn -/

section

variable {w : World} {out : Outcome} {t : Job}

/-- The calls that a job makes in the world `w`. -/
def Job.calls (w : World) (t : Job) : List Event :=
  match t.run w with
  | .ok out => (World.eventsSince w out.world).filter Event.isCall
  | .error _ => []

theorem Job.calls_of_run {new : List Event} (h : t.run w = .ok out)
    (hnew : out.world.calls = new ++ w.calls) : t.calls w = new.reverse := by
  obtain ⟨written, hjournal⟩ := Job.journal_run h
  have hcalls := World.calls_of_journal hjournal.symm
  rw [hnew] at hcalls
  simp only [calls, h]
  rw [World.eventsSince_of_append hjournal.symm, List.filter_reverse,
    ← List.append_cancel_right hcalls]

theorem Job.world_calls (h : t.run w = .ok out) :
    out.world.calls = (t.calls w).reverse ++ w.calls := by
  obtain ⟨written, hjournal⟩ := Job.journal_run h
  have hcalls := World.calls_of_journal hjournal.symm
  rw [calls_of_run h hcalls, List.reverse_reverse, hcalls]

theorem Job.calls_eq_nil (h : ∀ out, t.run w = .ok out → out.world.calls = w.calls) :
    t.calls w = [] := by
  rcases hrun : t.run w with f | out
  · simp only [calls, hrun]
  · have hcalls : out.world.calls = [] ++ w.calls := h out hrun
    exact calls_of_run hrun hcalls

theorem HashUse.calls_resume {outcome : HashOutcome} {use : HashUse}
    (h : use.resume w outcome = .ok out) : out.world.calls = w.calls := by
  cases use with
  | answer probe =>
    cases outcome <;> cases h <;> rfl
  | compareWith a b | screen bound id s =>
    cases h
    rfl
  | compareTo first b =>
    cases h
    rfl
  | makeKey k p =>
    cases outcome <;> cases h <;> rfl
  | insert s p save =>
    cases outcome with
    | error e =>
      cases h
      rfl
    | ok hash =>
      obtain ⟨id?, r, -, -, hjournal⟩ := RegistryOp.journal_register h
      exact World.calls_of_logs hjournal
  | find s probe save =>
    cases outcome with
    | error e =>
      cases h
      rfl
    | ok hash =>
      simp only [resume, bind, Except.bind] at h
      split at h
      · cases h
      · rename_i v _
        cases h
        obtain ⟨_ | id, r⟩ := v
        · rfl
        · exact congrArg (List.filter Event.isCall) ((w.setRegistry s r).journal_saveId save id)
  | contains s probe =>
    cases outcome with
    | error e =>
      cases h
      rfl
    | ok hash =>
      simp only [resume, bind, Except.bind] at h
      split at h <;> cases h
      rfl
  | remove s probe dest =>
    cases outcome with
    | error e =>
      cases h
      rfl
    | ok hash =>
      simp only [resume, bind, Except.bind] at h
      split at h
      · cases h
      · split at h
        · cases h
          rfl
        · obtain ⟨found, r, -, -, hjournal⟩ := RegistryOp.journal_unlink h
          exact World.calls_of_logs hjournal

theorem Job.calls_release (w : World) (h : Handle) : (release h).calls w = Event.releasing h := by
  have hcalls : (w.dispose h).calls = Event.releasing h ++ w.calls := by
    have hcollect : (Event.collecting (w.last? h)).filter Event.isCall = [] := by
      cases w.last? h <;> rfl
    have hjournal := w.journal_dispose h
    rw [← List.append_assoc] at hjournal
    rw [World.calls_of_journal hjournal, List.filter_append, hcollect, Event.filter_releasing]
    rfl
  rw [calls_of_run (run_release w h) hcalls, Event.reverse_releasing]

/-- A job that ends an operation makes no calls but those that release a handle. -/
theorem Job.calls_of_closing {a : Answer} (h : t.Closing ∨ t = .answer a) (w : World) :
    t.calls w = t.released?.elim [] Event.releasing := by
  rcases h with h | rfl
  · cases t with
    | release p => exact calls_release w p
    | log m => exact calls_eq_nil (by rintro _ ⟨⟩; rfl)
    | _ => exact h.elim
  · exact calls_eq_nil (by rintro _ ⟨⟩; rfl)

theorem Job.calls_ask {use : HashUse} {o : ObjectId} (h : use.probe.handle w = some o) :
    (ask use).calls w = [.hash o] := by
  have hrun : (ask use).run w =
      .ok { world := w.emit (.hash o), call := some ⟨.hash, o⟩, jobs := [.hashed o use] } := by
    simp only [run, h]
  have hcalls : (w.emit (.hash o)).calls = [.hash o] ++ w.calls := rfl
  exact calls_of_run hrun hcalls

theorem Job.calls_hashed (w : World) (o : ObjectId) (use : HashUse) :
    (hashed o use).calls w = [] := by
  apply calls_eq_nil
  intro out hrun
  have hcalls : out.world.calls = (w.modifyObject o ForeignObject.countHash).calls :=
    HashUse.calls_resume hrun
  exact hcalls

theorem Job.calls_screen (w : World) (sc : Screening) : (screen sc).calls w = [] := by
  apply calls_eq_nil
  intro out hrun
  by_cases hpending : sc.pending = []
  · have hprune : RegistryOp.prune w sc = .ok out := by
      simpa only [run, RegistryOp.screen, hpending] using hrun
    obtain ⟨removed, r, -, hworld⟩ := RegistryOp.world_prune hprune
    exact World.calls_of_logs (congrArg World.journal hworld)
  · obtain ⟨p, hworld⟩ := RegistryOp.world_screen hpending hrun
    rw [hworld]
    cases p <;> rfl

end

namespace Machine

variable {a b m : Machine} {ms : List Machine}

/-- The calls of the next turn. -/
def calls (m : Machine) : List Event := m.jobs.head?.elim [] (Job.calls m.world)

theorem calls_of_jobs {t : Job} {js : List Job} (h : m.jobs = t :: js) :
    m.calls = t.calls m.world := by
  rw [calls, h]
  rfl

theorem Turn.calls (h : Turn a b) : b.world.calls = a.calls.reverse ++ a.world.calls := by
  cases h with
  | carry hrun => exact Job.world_calls hrun
  | call script hrun =>
    -- entering a hook is no call
    exact Job.world_calls hrun
  | consult script keep hslot hentry hrun =>
    rw [calls_of_jobs rfl, Job.calls_screen]
    refine (Job.world_calls hrun).trans ?_
    rw [Job.calls_screen]
  | @fail w t rest f herr =>
    have hnone : t.calls w = [] := Job.calls_eq_nil fun out hrun => by cases herr.symm.trans hrun
    rw [calls_of_jobs rfl, hnone]
    rfl

/-- **The calls in the journal** are those of the turns. -/
theorem Run.calls (h : Run a ms b) :
    (World.eventsSince a.world b.world).filter Event.isCall = ms.flatMap Machine.calls := by
  have hcalls : b.world.calls = (ms.flatMap Machine.calls).reverse ++ a.world.calls := by
    induction h with
    | nil => rfl
    | cons hturn _ ih =>
      rw [ih, hturn.calls, List.flatMap_cons, List.reverse_append, List.append_assoc]
  obtain ⟨written, hjournal⟩ := h.journal
  rw [World.calls_of_journal hjournal.symm] at hcalls
  rw [World.eventsSince_of_append hjournal.symm, List.filter_reverse,
    List.append_cancel_right hcalls, List.reverse_reverse]

end Machine

/-! ## The calls of an operation itself -/

/-- Foreign code is at work on top of the jobs of an operation. The jobs are given from the
bottom up. A retaining step that asks for a hash does so for its predicate. -/
def Job.lent : List Job → Bool
  | .answer _ :: _ => false
  | [.ask use] => use.screening?.isSome
  | [_] => false
  | _ => true

/-- What comes of an operation that has nothing left to do but to close and to answer: the
calls that it makes to release handles, and the answer. -/
structure Outcome.Closes (out : Outcome) (calls : List Event) (answer : Answer) : Prop where
  call : out.call = none
  jobs : ∃ closing, out.jobs = closing ++ [.answer answer] ∧ (∀ u ∈ closing, u.Closing) ∧
    (closing.filterMap Job.released?).flatMap Event.releasing = calls

theorem Outcome.closes_say (w : World) (a : Answer) : (Outcome.say w a).Closes [] a :=
  ⟨rfl, [], rfl, by simp, rfl⟩

theorem Outcome.closes_of_jobs {out : Outcome} {a : Answer} {calls : List Event} (hs : List Handle)
    (hcall : out.call = none) (hjobs : out.jobs = hs.map .release ++ [.answer a])
    (hcalls : hs.flatMap Event.releasing = calls) : out.Closes calls a := by
  refine ⟨hcall, hs.map .release, hjobs, Job.closing_releases id hs, ?_⟩
  have hreleased : (hs.map Job.release).filterMap Job.released? = hs :=
    (Job.released?_releases id hs).trans (List.map_id hs)
  rw [hreleased, hcalls]

namespace Machine

variable {a b e c m x : Machine} {t : Job} {js rest : List Job} {ms ns : List Machine}
  {out : Outcome} {answer : Answer}

/-- The next turn is not one of the operation above the jobs `rest`, but of foreign code that
the operation has called: of a hook, or of the predicate of a retaining step. -/
def lends (rest : List Job) (m : Machine) : Bool :=
  m.hosts rest || Job.lent (m.jobs.take (m.jobs.length - rest.length)).reverse

/-- The calls that the operation above the jobs `rest` makes itself. -/
def ownCalls (rest : List Job) (ms : List Machine) : List Event :=
  ms.flatMap fun m => if m.lends rest then [] else m.calls

theorem ownCalls_append (rest : List Job) (ms ns : List Machine) :
    ownCalls rest (ms ++ ns) = ownCalls rest ms ++ ownCalls rest ns :=
  List.flatMap_append

theorem ownCalls_cons (rest : List Job) (m : Machine) (ms : List Machine) :
    ownCalls rest (m :: ms) = ownCalls rest [m] ++ ownCalls rest ms :=
  ownCalls_append rest [m] ms

theorem lends_of_jobs (above : List Job) (h : m.jobs = above ++ rest) :
    m.lends rest = (above.any Job.ends || Job.lent above.reverse) := by
  rw [lends, hosts_of_jobs above h, h, List.length_append, Nat.add_sub_cancel, List.take_left']
  rfl

theorem lends_of_hosts (h : m.hosts rest = true) : m.lends rest = true := by
  rw [lends, h]
  rfl

theorem lends_of_answer {above : List Job} (h : m.jobs = above ++ .answer answer :: rest) :
    m.lends rest = m.hosts rest := by
  have hjobs : m.jobs = above ++ [.answer answer] ++ rest := by simp [h]
  rw [lends_of_jobs _ hjobs, hosts_of_jobs _ hjobs, List.reverse_append]
  exact Bool.or_false _

theorem ownCalls_of_lends (h : ∀ x ∈ ms, x.lends rest = true) : ownCalls rest ms = [] := by
  apply List.flatMap_eq_nil_iff.2
  intro x hx
  rw [if_pos (h x hx)]

/-- A job with nothing above it makes its calls for the operation. -/
theorem ownCalls_of_jobs (h : m.jobs = t :: rest) (ht : t.ends = false)
    (hask : ∀ use, t = .ask use → use.screening? = none) :
    ownCalls rest [m] = t.calls m.world := by
  have hown : m.lends rest = false := by
    rw [lends_of_jobs [t] h]
    cases t with
    | ask use => simp [Job.ends, Job.lent, hask use rfl]
    | leave hook => cases ht
    | _ => rfl
  simp [ownCalls, hown, calls_of_jobs h]

/-- While an operation closes, its calls are those that release its handles. -/
theorem Run.ownCalls (h : Run a ms b) {closing : List Job}
    (hclosing : ∀ u ∈ closing, u.Closing) (hjobs : a.jobs = closing ++ .answer answer :: rest)
    (hb : b.jobs = rest) (hms : ∀ x ∈ ms, rest.length < x.jobs.length) :
    Machine.ownCalls rest ms = (closing.filterMap Job.released?).flatMap Event.releasing := by
  obtain ⟨hreleases, hturns⟩ := h.closing hclosing hjobs hb hms
  obtain ⟨-, hcertain, -⟩ := h.answers hjobs hb hms
  rw [← hreleases]
  clear hreleases h hms hjobs
  induction ms with
  | nil => rfl
  | cons x ms ih =>
    obtain ⟨hx, hms⟩ := List.forall_mem_cons.1 hturns
    obtain ⟨⟨above, habove⟩, hcertain⟩ := List.forall_mem_cons.1 hcertain
    have hfirst : Machine.ownCalls rest [x] =
        (Machine.releases rest [x]).flatMap Event.releasing := by
      simp only [Machine.ownCalls, Machine.releases, List.flatMap_cons, List.flatMap_nil,
        List.append_nil, lends_of_answer habove, List.filterMap_cons, List.filterMap_nil]
      cases hhosts : x.hosts rest with
      | true => rw [released?_of_hosts hhosts]; rfl
      | false =>
        rw [hhosts] at hx
        obtain ⟨t, js, hjobs, ht⟩ := hx.resolve_left Bool.false_ne_true
        rw [released?_of_jobs hjobs hhosts, calls_of_jobs hjobs, Job.calls_of_closing ht]
        cases t.released? <;> simp
    rw [ownCalls_cons, ih hms hcertain, hfirst, ← List.flatMap_append, ← releases_append]
    rfl

/-- **From the turn on that settles an operation**, its calls release its handles. -/
theorem Run.settles (h : Run e (e :: ms) c) (hjobs : e.jobs = t :: rest) (ht : t.visits = false)
    (hrun : t.run e.world = .ok out) {calls : List Event} (hout : out.Closes calls answer)
    (hc : c.jobs = rest) (hms : ∀ x ∈ ms, rest.length < x.jobs.length) :
    (∃ d after, ms = d :: after) ∧ c.world.answer = answer ∧ Machine.ownCalls rest ms = calls ∧
      ∀ x ∈ ms, ∃ above, x.jobs = above ++ .answer answer :: rest := by
  obtain ⟨closing, hout', hclosing, rfl⟩ := hout.jobs
  cases h with
  | cons hturn hrest =>
    obtain rfl := hturn.eq_of_run hjobs hrun hout.call ht
    have hbelow : out.jobs ++ rest = closing ++ .answer answer :: rest := by simp [hout']
    obtain ⟨⟨after, hafter⟩, hcertain, hanswer⟩ := hrest.answers hbelow hc hms
    exact ⟨⟨_, after, hafter⟩, hanswer, hrest.ownCalls hclosing hbelow hc hms, hcertain⟩

end Machine

/-! ## What an operation calls the host for -/

namespace Answer

def isFailure : Answer → Bool
  | failed _ => true
  | _ => false

/-- The object of the entry that was taken out. -/
def taken : Answer → Handle
  | withdrawn h | entry h => h
  | _ => none

end Answer

/-- The handle whose reference is acquired to have one from the source. -/
def Source.acquires (w : World) : Source → Handle
  | fresh target => (w.borrow? target).bind fun _ => target
  | copied h => w.handle h
  | taken _ => none

/-- The handle whose reference is acquired to take hold of the probe. -/
def Probe.acquires (w : World) : Probe → Handle
  | fresh target => (w.borrow? target).bind fun _ => target
  | register _ => none

/-- What is released when a handle that was taken out is handed over: what was in the register
that gets it, or the handle itself if no register does. -/
def World.displaced (w : World) (dest : Option Nat) (h : Handle) : Handle :=
  h.bind fun _ => dest.elim h w.handle

namespace RegistryOp

/-- The handle whose reference is acquired to have something to give to the operation. -/
def acquires (w : World) : RegistryOp → Handle
  | insert _ source _ => source.acquires w
  | find _ probe _ | contains _ probe | remove _ probe _ => probe.acquires w
  | _ => none

/-- The calls by which the operation, which begins in the world `v`, releases what it refuses
or throws out. -/
def frees (v : World) (answer : Answer) (ruled : List (ListenerId × Bool)) : RegistryOp → List Event
  | insert s source save =>
      if answer.isFailure then Event.releasing ((insert s source save).sought v) else []
  | insertKey _ k _ =>
      if answer.isFailure then Event.releasing ((v.key? k).bind Key.handle) else []
  | retain s _ =>
      (((v.registry s).entries.filter fun x => (x.1, false) ∈ ruled).map (·.2.handle)).flatMap
        Event.releasing
  | clear s | discard s => (v.registry s).handles.flatMap Event.releasing
  | _ => []

/-- **What an operation calls the host for**, if it begins in the world `v`. It asks for the
hash of the handle it is given, if it needs one, and it releases what it refuses or throws
out. -/
def toll (v : World) (answer : Answer) (ruled : List (ListenerId × Bool)) (op : RegistryOp) :
    List Event :=
  Event.hashing (op.sought v) ++ op.frees v answer ruled

/-- The calls that are made after the operation, which comes to its action in the world `w`, on
account of what it was given and what it hands over. -/
def returns (v w : World) (answer : Answer) : RegistryOp → List Event
  | find _ probe _ | contains _ probe => Event.releasing (probe.acquires v)
  | remove _ probe dest =>
      Event.releasing (w.displaced dest answer.taken) ++ Event.releasing (probe.acquires v)
  | removeId _ _ dest => Event.releasing (w.displaced dest answer.taken)
  | _ => []

/-- The operation, which began in `v`, asks for a hash in `w`, and this is what for. -/
def Puts (op : RegistryOp) (v w : World) : HashUse → Prop
  | .insert s h save => ∃ source, op = insert s source save ∧ v.obtain? source = some (h, w)
  | .find s grip save => ∃ probe, op = find s probe save ∧ v.grip? probe = some (grip, w)
  | .contains s grip => ∃ probe, op = contains s probe ∧ v.grip? probe = some (grip, w)
  | .remove s grip dest => ∃ probe, op = remove s probe dest ∧ v.grip? probe = some (grip, w)
  | _ => False

end RegistryOp

section

variable {v w w' : World} {source : Source} {probe : Probe} {grip : Grip} {h : Handle}

theorem Source.calls_of_obtain? (hw : w.obtain? source = some (h, w')) :
    w'.calls = Event.acquiring (source.acquires w) ++ w.calls := by
  have hjournal : w'.journal = Event.acquiring (source.acquires w) ++ w.journal := by
    cases source with
    | fresh target =>
      obtain ⟨u, hu, he⟩ := Option.map_eq_some_iff.1 hw
      cases he
      rw [acquires, hu]
      exact World.journal_borrow? hu
    | copied r =>
      cases hw
      exact w.journal_acquire (w.handle r)
    | taken r =>
      cases hw
      rfl
  rw [World.calls_of_journal hjournal, Event.filter_acquiring]

theorem Source.acquires_of_none (hw : w.obtain? source = none) : source.acquires w = none := by
  cases source with
  | fresh target =>
    rw [acquires, Option.map_eq_none_iff.1 hw]
    rfl
  | copied | taken => cases hw

theorem Probe.calls_of_grip? (hw : w.grip? probe = some (grip, w')) :
    w'.calls = Event.acquiring (probe.acquires w) ++ w.calls ∧
      grip.owned = probe.acquires w := by
  cases probe with
  | fresh target =>
    obtain ⟨u, hu, he⟩ := Option.map_eq_some_iff.1 hw
    cases he
    rw [acquires, hu, World.calls_of_journal (World.journal_borrow? hu), Event.filter_acquiring]
    exact ⟨rfl, rfl⟩
  | register r =>
    cases hw
    exact ⟨rfl, rfl⟩

/-- A probe that is not to be had, or that is null, is not acquired either. -/
theorem Probe.acquires_of_not_sought (hw : (w.grip? probe).bind (fun _ => probe.target w) = none) :
    probe.acquires w = none := by
  cases probe with
  | fresh target =>
    have hborrow : ((w.borrow? target).bind fun _ => target) = none := by
      cases hborrow : w.borrow? target with
      | none => rfl
      | some u =>
        simp only [World.grip?, hborrow] at hw
        exact hw
    exact hborrow
  | register r => rfl

@[simp] theorem World.displaced_none (w : World) (dest : Option Nat) :
    w.displaced dest none = none := rfl

end

namespace RegistryOp

variable {op : RegistryOp} {v w : World} {out : Outcome}

theorem calls_run (h : op.run w = .ok out) :
    out.world.calls = Event.acquiring (op.acquires w) ++ w.calls := by
  cases op with
  | insert s source save =>
    simp only [run] at h
    split at h
    · rename_i hnone
      cases h
      rw [acquires, Source.acquires_of_none hnone]
      rfl
    · rename_i u hsome
      cases h
      exact Source.calls_of_obtain? hsome
    · rename_i o u hsome
      cases h
      exact Source.calls_of_obtain? hsome
  | insertKey s k save =>
    simp only [run] at h
    split at h
    · cases h
      rfl
    · split at h
      · cases h
        rfl
      · obtain ⟨id?, r, -, -, hjournal⟩ := journal_register h
        exact World.calls_of_logs hjournal
  | find s probe save | contains s probe | remove s probe dest =>
    simp only [run] at h
    split at h
    · rename_i hnone
      cases h
      rw [acquires, Probe.acquires_of_not_sought (by rw [hnone]; rfl)]
      rfl
    · rename_i grip u hsome
      split at h <;> cases h <;> exact (Probe.calls_of_grip? hsome).1
  | get s n =>
    simp only [run] at h
    split at h <;> cases h <;> rfl
  | removeId s n dest =>
    simp only [run] at h
    split at h
    · cases h
      rfl
    · obtain ⟨found, r, -, -, hjournal⟩ := journal_unlink h
      exact World.calls_of_logs hjournal
  | sameId i j =>
    simp only [run] at h
    split at h <;> cases h <;> rfl
  | clear s =>
    simp only [run, bind, Except.bind] at h
    split at h <;> cases h
    rfl
  | retain | discard | size | entries =>
    cases h
    rfl

theorem puts_of_run {use : HashUse} (h : op.run v = .ok { world := w, jobs := [.ask use] })
    (hsought : op.sought v ≠ none) : op.Puts v w use := by
  cases op with
  | insert s source save =>
    simp only [run] at h
    split at h
    · cases h
    · cases h
    · rename_i o u hsome
      cases h
      exact ⟨source, rfl, hsome⟩
  | find s probe save | contains s probe | remove s probe dest =>
    simp only [run] at h
    split at h
    · cases h
    · rename_i grip u hsome
      split at h <;> cases h
      exact ⟨probe, rfl, hsome⟩
  | _ => exact absurd rfl hsought

/-! ## How operations close -/

theorem closes_register {s : Nat} (hw : (w.registry s).Sound) (k : Key) (save : Option Nat) :
    ∃ out answer, register w s k save = .ok out ∧
      out.Closes (if answer.isFailure then Event.releasing k.handle else []) answer := by
  obtain ⟨r, hr, -⟩ := Registry.register_eq hw k
  simp only [register, hr, bind, Except.bind]
  rcases (Roster.add (w.registry s).slots k).1 with _ | id
  · exact ⟨_, .failed .duplicateListener, rfl,
      Outcome.closes_of_jobs [k.handle] rfl rfl (by simp [Answer.isFailure])⟩
  · exact ⟨_, .located (some id), rfl, Outcome.closes_say _ _⟩

/-- An entry that is unlinked is handed over, and nothing else is released for it. -/
theorem closes_unlink {s : Nat} (hw : (w.registry s).Sound)
    (hpeopled : ∀ id k, (w.registry s).get? id = some k → k.handle ≠ none) (id : ListenerId)
    (dest : Option Nat) {jobs : Handle → List Job} (hs : List Handle) (answer : Handle → Answer)
    (hjobs : ∀ h, jobs h = hs.map .release ++ [.answer (answer h)]) :
    ∃ out h, unlink w s id dest jobs = .ok out ∧
      out.Closes (Event.releasing (w.displaced dest h) ++ hs.flatMap Event.releasing) (answer h) := by
  obtain ⟨r, hr, -⟩ := Registry.unlink_eq hw id
  simp only [unlink, hr, bind, Except.bind, Roster.take_fst]
  rcases hget : (w.registry s).slots.get? id with _ | k
  · exact ⟨_, none, rfl, Outcome.closes_of_jobs hs rfl (hjobs none) rfl⟩
  · obtain ⟨o, ho⟩ := Option.ne_none_iff_exists'.1 (hpeopled id k hget)
    refine ⟨_, some o, rfl, ?_⟩
    simp only [ho]
    rcases dest with _ | r'
    · exact Outcome.closes_of_jobs (some o :: hs) rfl (congrArg (_ :: ·) (hjobs _)) rfl
    · exact Outcome.closes_of_jobs (w.handle r' :: hs) rfl (congrArg (_ :: ·) (hjobs _)) rfl

/-- An operation that comes to its answer at once releases nothing. -/
theorem quiet_of_say {answer : Answer} (h : op.run v = .ok (.say w answer))
    (hact : op.action? v = none) (hsought : op.sought v = none) (ruled : List (ListenerId × Bool)) :
    op.frees v answer ruled = [] ∧ op.returns v v answer = [] := by
  cases op with
  | insert s source save =>
    rw [frees, hsought]
    exact ⟨ite_self _, rfl⟩
  | insertKey s k save =>
    have hnull : (v.key? k).bind Key.handle = none := by
      cases hkey : v.key? k with
      | none => rfl
      | some key =>
        simp only [action?, hkey, Option.bind_some] at hact
        split at hact
        · assumption
        · cases hact
    rw [frees, hnull]
    exact ⟨ite_self _, rfl⟩
  | find s probe save | contains s probe =>
    rw [returns, Probe.acquires_of_not_sought hsought]
    exact ⟨rfl, rfl⟩
  | remove s probe dest =>
    have hnone : answer.taken = none := by
      simp only [run] at h
      split at h
      · cases h
        rfl
      · split at h <;> cases h
        rfl
    rw [returns, Probe.acquires_of_not_sought hsought, hnone]
    exact ⟨rfl, rfl⟩
  | removeId s n dest =>
    have hnone : answer.taken = none := by
      simp only [run, Option.map_eq_none_iff.1 hact] at h
      cases h
      rfl
    rw [returns, hnone]
    exact ⟨rfl, rfl⟩
  | retain => cases h
  | clear | discard => cases hact
  | _ => exact ⟨rfl, rfl⟩

/-- An operation that takes its action at once closes. -/
theorem closes_run (hw : v.Consistent) (hpeopled : v.Peopled) {x : Nat × Action}
    (hact : op.action? v = some x) (ruled : List (ListenerId × Bool)) :
    ∃ out answer, op.run v = .ok out ∧
      out.Closes (op.frees v answer ruled ++ op.returns v v answer) answer := by
  cases op with
  | insertKey s k save =>
    obtain ⟨key, hkey, hact⟩ := Option.bind_eq_some_iff.1 hact
    have hsound : ((v.setKey k none).registry s).Sound := hw s
    obtain ⟨out, answer, hout, hcloses⟩ := closes_register hsound key save
    refine ⟨out, answer, ?_, ?_⟩
    · cases hnull : key.handle with
      | none => simp [hnull] at hact
      | some o => simp only [run, hkey, hnull, hout]
    · simpa only [frees, returns, hkey, Option.bind_some, List.append_nil] using hcloses
  | get s n =>
    obtain ⟨id, hid, -⟩ := Option.map_eq_some_iff.1 hact
    exact ⟨_, _, by simp only [run, hid]; rfl, Outcome.closes_say _ _⟩
  | removeId s n dest =>
    obtain ⟨id, hid, -⟩ := Option.map_eq_some_iff.1 hact
    obtain ⟨out, h, hout, hcloses⟩ :=
      closes_unlink (hw s) (hpeopled s) id dest [] .entry fun _ => rfl
    have hrun : unlink v s id dest (fun h => [.answer (.entry h)]) = .ok out := hout
    refine ⟨out, .entry h, by simp only [run, hid, hrun], ?_⟩
    rw [List.flatMap_nil, List.append_nil] at hcloses
    exact hcloses
  | clear s =>
    have hdrain := Registry.drain_of_sound (hw s)
    refine ⟨_, .cleared, by simp only [run, hdrain, bind, Except.bind]; rfl, ?_⟩
    apply Outcome.closes_of_jobs (v.registry s).handles
    · rfl
    · simp [Registry.handles, Registry.entries, SlotTable.drain]
    · exact (List.append_nil _).symm
  | discard s =>
    refine ⟨_, .dropped, rfl, ?_⟩
    apply Outcome.closes_of_jobs (v.registry s).handles
    · rfl
    · simp [Registry.handles]
    · exact (List.append_nil _).symm
  | size s | entries s => exact ⟨_, _, rfl, Outcome.closes_say _ _⟩
  | insert | find | contains | remove | sameId | retain => cases hact

end RegistryOp

/-- An operation that got its hash, or was refused one, closes. -/
theorem HashUse.closes_resume {op : RegistryOp} {v u w : World} {use : HashUse}
    (hop : op.Puts v u use) (hw : w.Consistent) (hpeopled : w.Peopled) (outcome : HashOutcome)
    (ruled : List (ListenerId × Bool)) :
    ∃ out answer, use.resume w outcome = .ok out ∧
      out.Closes (op.frees v answer ruled ++ op.returns v w answer) answer := by
  cases use with
  | insert s h save =>
    obtain ⟨source, rfl, hobtain⟩ := hop
    have hsought : (RegistryOp.insert s source save).sought v = h := by
      simp [RegistryOp.sought, hobtain, World.target_of_obtain? hobtain]
    simp only [RegistryOp.frees, RegistryOp.returns, hsought, List.append_nil]
    cases outcome with
    | error e =>
      refine ⟨_, .failed e, rfl, rfl, [.release h, .log (.rejecting e)], rfl, by simp [Job.Closing], ?_⟩
      simp [Job.released?, Answer.isFailure]
    | ok hash => exact RegistryOp.closes_register (hw s) ⟨h, hash⟩ save
  | find s grip save | contains s grip =>
    obtain ⟨probe, rfl, hgrip⟩ := hop
    simp only [RegistryOp.frees, RegistryOp.returns, ← (Probe.calls_of_grip? hgrip).2,
      List.nil_append]
    cases outcome with
    | error e =>
      exact ⟨_, .failed e, rfl, Outcome.closes_of_jobs [grip.owned] rfl rfl (by simp)⟩
    | ok hash =>
      simp only [resume, Registry.locate_eq (hw s), bind, Except.bind]
      exact ⟨_, _, rfl, Outcome.closes_of_jobs [grip.owned] rfl rfl (by simp)⟩
  | remove s grip dest =>
    obtain ⟨probe, rfl, hgrip⟩ := hop
    simp only [RegistryOp.frees, RegistryOp.returns, ← (Probe.calls_of_grip? hgrip).2,
      List.nil_append]
    cases outcome with
    | error e =>
      exact ⟨_, .failed e, rfl, Outcome.closes_of_jobs [grip.owned] rfl rfl (by simp [Answer.taken])⟩
    | ok hash =>
      simp only [resume, Registry.locate_eq (hw s), bind, Except.bind]
      rcases Roster.idOf? (w.registry s).slots ⟨grip.handle w, hash⟩ with _ | id
      · exact ⟨_, .withdrawn none, rfl,
          Outcome.closes_of_jobs [grip.owned] rfl rfl (by simp [Answer.taken])⟩
      · have hsame : (w.setRegistry s (w.registry s)).registry s = w.registry s :=
          World.registry_setRegistry_self ..
        have hsound : ((w.setRegistry s (w.registry s)).registry s).Sound := by
          rw [hsame]
          exact hw s
        obtain ⟨out, h, hout, hcloses⟩ := RegistryOp.closes_unlink hsound
          (by rw [hsame]; exact hpeopled s) id dest [grip.owned] .withdrawn fun _ => rfl
        refine ⟨out, .withdrawn h, hout, ?_⟩
        rw [List.flatMap_singleton] at hcloses
        exact hcloses
  | _ => exact hop.elim

/-! ## Performances -/

namespace Machine

variable {m : Machine} {rest : List Job}

/-- Whatever is above a job of an operation that has not come to its answer is foreign. -/
theorem lends_of_above {t u : Job} {above : List Job} (h : m.jobs = t :: above ++ u :: rest)
    (hu : ∀ a, u ≠ .answer a) : m.lends rest = true := by
  have hjobs : m.jobs = (t :: above ++ [u]) ++ rest := by simp [h]
  obtain ⟨y, ys, hy⟩ := List.exists_cons_of_ne_nil (show (t :: above).reverse ≠ [] by simp)
  rw [lends_of_jobs _ hjobs, List.reverse_append, hy, Bool.or_eq_true]
  right
  cases u with
  | answer a => exact absurd rfl (hu a)
  | _ => rfl

/-- While a retaining step is on its way, it makes no calls but for its predicate. -/
theorem ownCalls_of_underway {s : Nat} {keep : Keep} {v : World}
    (h : Underway (.retain s keep) v rest m) : ownCalls rest [m] = [] := by
  obtain ⟨above, u, hjobs, ⟨w, asked, ruled, hstage⟩, -⟩ := h
  cases above with
  | cons t above =>
    apply ownCalls_of_lends
    intro x hx
    rw [List.mem_singleton.1 hx]
    apply lends_of_above hjobs
    rintro a rfl
    exact hstage
  | nil =>
    cases u with
    | perform step =>
      rw [ownCalls_of_jobs hjobs rfl (by rintro _ ⟨⟩)]
      rcases step with (_ | _ | _ | _ | op) | steps
      case op.registry =>
        obtain ⟨rfl, -⟩ := hstage
        exact Job.calls_eq_nil (by rintro _ ⟨⟩; rfl)
      all_goals exact hstage.elim
    | ask use =>
      cases use with
      | screen bound id sc =>
        apply ownCalls_of_lends
        intro x hx
        rw [List.mem_singleton.1 hx, lends_of_jobs [_] hjobs]
        rfl
      | insert | find | contains | remove =>
        obtain ⟨⟨_, hop, -⟩, -⟩ := hstage
        cases hop
      | _ => exact hstage.1.elim
    | hashed o use =>
      rw [ownCalls_of_jobs hjobs rfl (by rintro _ ⟨⟩), Job.calls_hashed]
    | screen sc =>
      rw [ownCalls_of_jobs hjobs rfl (by rintro _ ⟨⟩), Job.calls_screen]
    | _ => exact hstage.elim

end Machine

namespace Performance

open Machine

variable {p : Performance} {before after ms : List Machine} {d e : Machine}

/-- The calls that the operation makes itself. -/
def calls (p : Performance) : List Event := ownCalls p.rest p.during

/-- The operation, which comes to its action or its refusal in the turn of `e`, calls the host
for what it should. -/
def Bills (p : Performance) (e : Machine) : Prop :=
  p.calls = Event.acquiring (p.op.acquires p.first.world) ++
    (p.op.toll p.first.world p.answer p.rulings ++ p.op.returns p.first.world e.world p.answer)

theorem Complete.calls_first (hp : p.Complete) {out : Outcome}
    (hrun : p.op.run p.first.world = .ok out) :
    ownCalls p.rest [p.first] = Event.acquiring (p.op.acquires p.first.world) := by
  have hfirst : (Job.perform (.op (.registry p.op))).run p.first.world = .ok out := hrun
  rw [ownCalls_of_jobs hp.begins rfl (by rintro _ ⟨⟩),
    Job.calls_of_run hfirst (RegistryOp.calls_run hrun), Event.reverse_acquiring]

/-- An operation that settles in its first turn takes place there. -/
theorem Complete.takesPlace_first (hp : p.Complete) (hduring : p.during = p.first :: d :: after)
    (hcertain : ∀ x ∈ d :: after, ∃ above a, x.jobs = above ++ .answer a :: p.rest) :
    p.TakesPlace [] p.first d after := by
  refine ⟨hduring, ⟨_, hp.begins⟩, by simp, ?_⟩
  intro x hx hown
  obtain ⟨above, a, hjobs⟩ := hcertain x hx
  exact act?_of_answer hjobs hown

/-- An operation that asks for a hash and settles when it has it. -/
theorem Complete.bills_of_asks (hp : p.Complete) (hw : p.first.world.Consistent)
    (hpeopled : ∀ x ∈ p.during, x.world.Peopled) {w : World} {s : Nat} {o : ObjectId}
    {use : HashUse} (hrun : p.op.run p.first.world = .ok { world := w, jobs := [.ask use] })
    (haction : p.op.action? p.first.world = none) (hprobe : use.probe.handle w = some o)
    (hseeks : p.op.Seeks p.first.world s o use) :
    ∃ before e d after, p.TakesPlace before e d after ∧ p.Bills e := by
  have hputs : p.op.Puts p.first.world w use :=
    RegistryOp.puts_of_run hrun (by simp [hseeks.sought])
  have hscreen : use.screening? = none := by
    obtain ⟨action, haction, -⟩ := hseeks.acts w 0
    exact use.screening?_of_action haction
  obtain ⟨hooks, h, ms, hduring, hbefore, hafter, hjobs, hhooks, hlonger⟩ := hp.asks hrun hprobe
  have hconsistent : h.world.Consistent := (hbefore.preserves_consistent hw).1
  obtain ⟨out, answer, hout, hcloses⟩ := HashUse.closes_resume hputs
    (w := h.world.modifyObject o ForeignObject.countHash) hconsistent
    (hpeopled h (by simp [hduring])) (h.world.hashOutcome o) p.rulings
  obtain ⟨⟨d, after, rfl⟩, hanswer, hcalls, hcertain⟩ :=
    hafter.settles hjobs rfl hout hcloses hp.ends hlonger
  refine ⟨_, h, d, after, ⟨hduring, ⟨_, hjobs⟩, ?_, ?_⟩, ?_⟩
  · rw [List.forall_mem_cons, List.forall_mem_cons]
    refine ⟨fun _ => act?_of_no_action hp.begins haction, fun _ => act?_of_no_action rfl ?_, ?_⟩
    · simp only [Job.action?, hprobe]
      rfl
    · rintro x hx ⟨t, ht⟩
      have hlength := (hhooks x hx).length
      simp [ht] at hlength
  · intro x hx hown
    obtain ⟨above, hx⟩ := hcertain x hx
    exact act?_of_answer hx hown
  · -- the hooks of the hash function come between the request and the hash
    have hhooked : ownCalls p.rest hooks = [] := by
      apply ownCalls_of_lends
      intro x hx
      have hwaits : x.Hosts ([.hashed o use] ++ p.rest) := hhooks x hx
      exact lends_of_hosts hwaits.hosts
    have hask : ownCalls p.rest [⟨w, .ask use :: p.rest, none⟩] = Event.hashing (some o) := by
      rw [ownCalls_of_jobs rfl rfl (by rintro _ ⟨⟩; exact hscreen), Job.calls_ask hprobe]
      rfl
    have hhash : ownCalls p.rest [h] = [] := by
      rw [ownCalls_of_jobs hjobs rfl (by rintro _ ⟨⟩), Job.calls_hashed]
    have hreturns : p.op.returns p.first.world (h.world.modifyObject o ForeignObject.countHash)
        answer = p.op.returns p.first.world h.world answer := rfl
    rw [Bills, calls, hduring, ownCalls_append, ownCalls_cons, hp.calls_first hrun, ownCalls_cons,
      hask, hhooked, ownCalls_cons _ h, hhash, hcalls, Performance.answer, hanswer,
      RegistryOp.toll, hseeks.sought, hreturns]
    simp only [List.append_nil, List.nil_append, List.append_assoc]

/-- The turns before a retaining step comes to its action are on the way there. -/
theorem TakesPlace.underway (h : p.TakesPlace before e d after) (hp : p.Complete)
    (hw : p.first.world.Consistent) {s : Nat} {keep : Keep} (hop : p.op = .retain s keep) :
    ∀ x ∈ before, Underway (.retain s keep) p.first.world p.rest x := by
  obtain ⟨before', after', c, d', closing, a, hduring, hbefore, hown, hsettles, -⟩ :=
    hp.serialized hw
  rw [hop] at hbefore hsettles
  have hact : c.act? ≠ none := by
    rcases hsettles with ⟨x, hx, -⟩ | ⟨-, hdeclines⟩
    · simp [hx]
    · exact absurd hdeclines RegistryOp.not_declines_retain
  have hsplit : before ++ e :: d :: after = before' ++ c :: d' :: after' :=
    h.during.symm.trans hduring
  rcases List.append_eq_append_iff.1 hsplit with ⟨l, rfl, -⟩ | ⟨l, rfl, hl⟩
  · exact fun x hx => hbefore x (List.mem_append_left l hx)
  · cases l with
    | nil => simpa using hbefore
    | cons y l =>
      obtain ⟨rfl, -⟩ := List.cons.inj hl
      exact absurd (h.before c (by simp) hown) hact

/-- A retaining step that is left in peace while it decides. -/
theorem Complete.bills_of_retain (hp : p.Complete) (hw : p.first.world.Consistent)
    (hpeopled : p.first.world.Peopled) {s : Nat} {keep : Keep} (hop : p.op = .retain s keep)
    (hrespect : ∀ x ∈ p.during, x.Respects p.rest) :
    ∃ before e d after, p.TakesPlace before e d after ∧ p.Bills e := by
  obtain ⟨before, e, tail, sc, hdecided⟩ := hp.decides hop hw hpeopled hrespect
  obtain ⟨d, after, rfl, -, hprunes⟩ := hdecided.prunes hp hw
  refine ⟨before, e, d, after, hprunes.place, ?_⟩
  have hbefore : ownCalls p.rest before = [] := by
    have hunderway := hprunes.place.underway hp hw hop
    clear hdecided hprunes
    induction before with
    | nil => rfl
    | cons x before ih =>
      obtain ⟨hx, hbefore⟩ := List.forall_mem_cons.1 hunderway
      rw [ownCalls_cons, ownCalls_of_underway hx, ih hbefore]
      rfl
  have hown : ownCalls p.rest [e] = [] := by
    rw [ownCalls_of_jobs hdecided.jobs rfl (by rintro _ ⟨⟩), Job.calls_screen]
  obtain ⟨-, hrest⟩ := (hdecided.run hp).2.uncons
  have hcalls := hrest.ownCalls (Job.closing_releases _ _) hprunes.closing hp.ends
    (hdecided.within hp)
  rw [Bills, calls, hprunes.place.during, ownCalls_append, hbefore, ownCalls_cons, hown, hcalls,
    Job.released?_releases, hop]
  simp [RegistryOp.acquires, RegistryOp.toll, RegistryOp.sought, Event.hashing, RegistryOp.frees,
    RegistryOp.returns, dropped]

/-- **An operation calls the host for what it should**, and for nothing else. -/
theorem Complete.bills (hp : p.Complete) (hw : p.first.world.Consistent)
    (hpeopled : ∀ x ∈ p.during, x.world.Peopled)
    (hrespect : ∀ s keep, p.op = .retain s keep → ∀ x ∈ p.during, x.Respects p.rest) :
    ∃ before e d after, p.TakesPlace before e d after ∧ p.Bills e := by
  obtain ⟨d, ms, hduring, hturn, hrest, hlonger⟩ := hp.starts
  have hfirst : p.first.world.Peopled := hpeopled p.first (by simp [hduring])
  -- an operation that settles at once makes its calls when it closes
  have hsettled {out : Outcome} {answer : Answer} (hrun : p.op.run p.first.world = .ok out)
      (hsought : p.op.sought p.first.world = none)
      (hcloses : out.Closes (p.op.frees p.first.world answer p.rulings ++
        p.op.returns p.first.world p.first.world answer) answer) :
      ∃ before e d after, p.TakesPlace before e d after ∧ p.Bills e := by
    obtain ⟨⟨d', after, rfl⟩, hanswer, hcalls, hcertain⟩ :=
      (Run.cons hturn hrest).settles hp.begins rfl hrun hcloses hp.ends hlonger
    refine ⟨[], p.first, d', after, hp.takesPlace_first hduring ?_, ?_⟩
    · intro x hx
      obtain ⟨above, hx⟩ := hcertain x hx
      exact ⟨above, answer, hx⟩
    · rw [Bills, calls, hduring, ownCalls_cons, hp.calls_first hrun, hcalls, Performance.answer,
        hanswer, RegistryOp.toll, hsought]
      rfl
  cases p.op.begins p.first.world with
  | acts s action hregistry haction hsought hrequest =>
    obtain ⟨out, answer, hrun, hcloses⟩ := RegistryOp.closes_run hw hfirst haction p.rulings
    exact hsettled hrun hsought hcloses
  | answers w answer hrun haction hsought hrequest =>
    obtain ⟨hfrees, hreturns⟩ := RegistryOp.quiet_of_say hrun haction hsought p.rulings
    apply hsettled hrun hsought
    rw [hfrees, hreturns]
    exact Outcome.closes_say w answer
  | asks w s o use hregistry hrun haction hprobe hseeks =>
    exact hp.bills_of_asks hw hpeopled hrun haction hprobe hseeks
  | visits s keep hop => exact hp.bills_of_retain hw hfirst hop (hrespect s keep hop)

end Performance

/-! ## Whole runs -/

/-- No operation acquires a reference on its own account. -/
theorem RegistryOp.hash_or_decref_of_mem_toll {op : RegistryOp} {v : World} {answer : Answer}
    {ruled : List (ListenerId × Bool)} {x : Event} (h : x ∈ op.toll v answer ruled) :
    (∃ o, x = .hash o ∧ op.sought v = some o) ∨ ∃ o, x = .decref o := by
  have hreleasing {p : Handle} (hx : x ∈ Event.releasing p) : ∃ o, x = .decref o := by
    cases p with
    | none => cases hx
    | some o => exact ⟨o, List.mem_singleton.1 hx⟩
  have hreleases {hs : List Handle} (hx : x ∈ hs.flatMap Event.releasing) : ∃ o, x = .decref o := by
    obtain ⟨p, -, hx⟩ := List.mem_flatMap.1 hx
    exact hreleasing hx
  rcases List.mem_append.1 h with hx | hx
  · left
    cases hsought : op.sought v with
    | none =>
      rw [hsought] at hx
      cases hx
    | some o =>
      rw [hsought] at hx
      exact ⟨o, List.mem_singleton.1 hx, rfl⟩
  · right
    have hrefused {p : Handle} (hx : x ∈ if answer.isFailure then Event.releasing p else []) :
        ∃ o, x = .decref o := by
      split at hx
      · exact hreleasing hx
      · cases hx
    cases op with
    | insert | insertKey => exact hrefused hx
    | retain | clear | discard => exact hreleases hx
    | _ => cases hx

namespace Machine

variable {objects : List ForeignObject} {steps : List Step} {ms : List Machine} {m : Machine}

/-- **The calls of an operation are exact.** What is given to the operation may have to be
acquired first, and what it hands over may have to be released in the end. In between, the
operation asks for the hash of what it is given, if it needs one, and it releases what it
refuses or throws out, and these are all calls that it makes itself. It acquires nothing and
hashes nothing else. If no foreign code that it calls makes calls, these are all calls that are
made. -/
theorem traffic_exact (h : Run (session objects steps) ms m) {p : Performance}
    (hfirst : p.first = m) (hp : p.Complete)
    (hrespect : ∀ s keep, p.op = .retain s keep → ∀ x ∈ p.during, x.Respects p.rest) :
    m.world.Peopled ∧
    (∃ before e d after, p.TakesPlace before e d after ∧
      p.calls = Event.acquiring (p.op.acquires m.world) ++
        (p.op.toll m.world p.answer p.rulings ++ p.op.returns m.world e.world p.answer)) ∧
    (∀ x ∈ p.op.toll m.world p.answer p.rulings,
      (∃ o, x = .hash o ∧ p.op.sought m.world = some o) ∨ ∃ o, x = .decref o) ∧
    ((∀ x ∈ p.during, x.lends p.rest = true → x.calls = []) →
      (World.eventsSince m.world p.last.world).filter Event.isCall = p.calls) := by
  subst hfirst
  have hall : ∀ x ∈ p.during, x.world.Peopled := by
    intro x hx
    exact (h.append hp.run).peopled x (by simp [hx])
  refine ⟨h.peopled p.first List.mem_cons_self, hp.bills h.consistent.1 hall hrespect,
    fun x hx => RegistryOp.hash_or_decref_of_mem_toll hx, ?_⟩
  intro hquiet
  rw [hp.run.calls, Performance.calls, ownCalls]
  apply List.flatMap_congr
  intro x hx
  cases hlends : x.lends p.rest with
  | true => exact hquiet x hx hlends
  | false => rfl

/-- Registers the first object twice. -/
def repeatSteps : List Step :=
  [.op (.registry (.insert 0 (.fresh (some 0)) none)),
    .op (.registry (.insert 0 (.fresh (some 0)) none))]

/-- The machine that is about to register the object again. -/
def repeating : Machine := (session relapseObjects repeatSteps).turns still 4

/-- How that is refused. -/
def repetition : Performance :=
  ⟨.insert 0 (.fresh (some 0)) none, [], repeating, visited still 5 repeating,
    repeating.turns still 5⟩

/-- The step that retains the second object lets go of the others, and what their finalizers
call for is not its own. A listener that is refused was hashed once and is released once. -/
theorem traffic_exact_in_relapse :
    pruning.calls = [.decref 0, .decref 2] ∧
    (World.eventsSince repeating.world repetition.last.world).filter Event.isCall =
      [.incref 0, .hash 0, .decref 0] := by
  constructor
  · have hcomplete : pruning.Complete :=
      ⟨rfl, run_visited relapse 14 relapsing, rfl, by decide +kernel⟩
    have hrun : Run (session relapseObjects relapseSteps) _ relapsing := run_visited relapse 15 _
    obtain ⟨-, ⟨_, e, _, _, -, hcalls⟩, -⟩ := traffic_exact hrun (p := pruning) rfl hcomplete
      fun _ _ _ => by decide +kernel
    have hdropped : ((relapsing.world.registry 0).entries.filter fun x =>
        (x.1, false) ∈ pruning.rulings).map (·.2.handle) = [some 0, some 2] := by decide +kernel
    rw [hcalls]
    show [] ++ (([] ++ List.flatMap Event.releasing (List.map _ _)) ++ []) = _
    rw [hdropped]
    rfl
  · have hcomplete : repetition.Complete :=
      ⟨rfl, run_visited still 5 repeating, rfl, by decide +kernel⟩
    have hown : ∀ x ∈ repetition.during, x.lends [] = false := by decide +kernel
    have hrun : Run (session relapseObjects repeatSteps) _ repeating := run_visited still 4 _
    obtain ⟨-, ⟨_, e, _, _, -, hcalls⟩, -, hall⟩ := traffic_exact hrun (p := repetition) rfl hcomplete
      fun _ _ hop => by cases hop
    have hacquires : repetition.op.acquires repeating.world = some 0 := by decide +kernel
    have hsought : repetition.op.sought repeating.world = some 0 := by decide +kernel
    have hfails : repetition.answer.isFailure = true := by decide +kernel
    rw [hall fun x hx hlends => absurd hlends (by simp [repetition, hown x hx]), hcalls, hacquires,
      RegistryOp.toll, hsought]
    show [.incref 0] ++ (([.hash 0] ++ if repetition.answer.isFailure = true then
      Event.releasing (repetition.op.sought repeating.world) else []) ++ []) = _
    rw [if_pos hfails, hsought]
    rfl

end Machine

end ListenerRegistry
