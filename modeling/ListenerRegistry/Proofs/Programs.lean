import ListenerRegistry.Proofs.Strategy

/-!
# Programs are strategies

A job calls the host when it releases the last reference on an object and when it asks
for a hash, and at no other time. So what a program does in a turn can be told
beforehand, and it is the same under the veil.
-/

namespace ListenerRegistry

/-! ## Calls -/

section

variable {w : World} {out : Outcome}

theorem HandleOp.call_run (op : HandleOp) : (op.run w).call = none := by
  cases op <;> simp only [run, copy, copyOver, overwrite] <;> (repeat' split) <;> rfl

theorem HostOp.call_run (op : HostOp) : (op.run w).call = none := by
  cases op <;> simp only [run] <;> (repeat' split) <;> rfl

theorem KeyOp.call_run (op : KeyOp) : (op.run w).call = none := by
  cases op <;> simp only [run] <;> (repeat' split) <;> rfl

theorem KeySetOp.call_run (op : KeySetOp) : (op.run w).call = none := by
  cases op <;> simp only [run] <;> (repeat' split) <;> rfl

namespace RegistryOp

theorem call_register {s : Nat} {k : Key} {save : Option Nat}
    (h : register w s k save = .ok out) : out.call = none := by
  simp only [register, bind, Except.bind, pure, Except.pure] at h
  split at h
  · cases h
  · cases h
    split <;> rfl

theorem call_unlink {s : Nat} {id : ListenerId} {dest : Option Nat} {jobs : Handle → List Job}
    (h : unlink w s id dest jobs = .ok out) : out.call = none := by
  simp only [unlink, bind, Except.bind, pure, Except.pure] at h
  split at h
  · cases h
  · cases h
    split
    · cases dest <;> rfl
    · rfl

theorem call_screen {sc : Screening} (h : screen w sc = .ok out) : out.call = none := by
  cases hpending : sc.pending with
  | nil =>
    simp only [screen, hpending, prune, bind, Except.bind, pure, Except.pure] at h
    split at h <;> cases h
    rfl
  | cons i pending =>
    simp only [screen, hpending] at h
    (repeat' split at h) <;> cases h <;> rfl

theorem call_run {op : RegistryOp} (h : op.run w = .ok out) : out.call = none := by
  cases op with
  | insertKey s r save =>
    simp only [run] at h
    split at h
    · cases h
      rfl
    · split at h
      · cases h
        rfl
      · exact call_register h
  | removeId s n dest =>
    simp only [run] at h
    split at h
    · cases h
      rfl
    · exact call_unlink h
  | clear s =>
    simp only [run, bind, Except.bind, pure, Except.pure] at h
    split at h <;> cases h
    rfl
  | _ =>
    simp only [run] at h
    (repeat' split at h) <;> cases h <;> rfl

end RegistryOp

theorem HashUse.call_resume {use : HashUse} {outcome : HashOutcome}
    (h : use.resume w outcome = .ok out) : out.call = none := by
  cases use with
  | answer | compareWith | compareTo | screen =>
    cases h
    rfl
  | makeKey k h' =>
    cases outcome <;> cases h <;> rfl
  | insert s h' save =>
    cases outcome with
    | error e =>
      cases h
      rfl
    | ok hash => exact RegistryOp.call_register h
  | find | contains =>
    cases outcome with
    | error e =>
      cases h
      rfl
    | ok hash =>
      simp only [resume, bind, Except.bind, pure, Except.pure] at h
      split at h <;> cases h
      rfl
  | remove s grip dest =>
    cases outcome with
    | error e =>
      cases h
      rfl
    | ok hash =>
      simp only [resume, bind, Except.bind, pure, Except.pure] at h
      split at h
      · cases h
      · split at h
        · cases h
          rfl
        · exact RegistryOp.call_unlink h

end

/-! ## Programs -/

namespace Job

/-- The hook that a job calls. -/
def call? (w : World) : Job → Option Hook
  | release (some o) => if (w.adjust o (-1)).count o = 0 then some ⟨.collect, o⟩ else none
  | ask use => (use.probe.handle w).map fun o => ⟨.hash, o⟩
  | _ => none

variable {w : World} {t : Job} {out : Outcome}

/-- **Only releasing a handle and asking for a hash call the host.** -/
theorem call_run (h : t.run w = .ok out) : out.call = t.call? w := by
  cases t with
  | perform step =>
    cases step with
    | op op =>
      cases op with
      | handle op =>
        cases h
        exact op.call_run
      | host op =>
        cases h
        exact op.call_run
      | key op =>
        cases h
        exact op.call_run
      | keySet op =>
        cases h
        exact op.call_run
      | registry op => exact RegistryOp.call_run h
    | batch steps => cases steps <;> cases h <;> rfl
  | release h' =>
    cases h' with
    | none =>
      cases h
      rfl
    | some o =>
      have hcount : ((w.adjust o (-1)).emit (.decref o)).count o = (w.adjust o (-1)).count o := rfl
      simp only [run, hcount] at h
      simp only [call?]
      split at h <;> cases h <;> simp_all
  | ask use =>
    simp only [run] at h
    simp only [call?]
    split at h
    · rename_i hnull
      rw [HashUse.call_resume h, hnull]
      rfl
    · rename_i o hprobe
      cases h
      rw [hprobe]
      rfl
  | hashed o use => exact HashUse.call_resume h
  | screen sc => exact RegistryOp.call_screen h
  | gather rest answers => cases rest <;> cases h <;> rfl
  | install | log | answer | answerCount | record | leave =>
    cases h
    rfl

/-- A job that calls the host is carried out, and leaves no end mark. -/
theorem run_of_call? {hook : Hook} (h : t.call? w = some hook) :
    ∃ out, t.run w = .ok out ∧ ∀ (hook' : Hook) (rest : List Job),
      Machine.running hook' (out.jobs ++ rest) = Machine.running hook' rest := by
  cases t with
  | release h' =>
    cases h' with
    | none => cases h
    | some o =>
      simp only [run]
      split <;> exact ⟨_, rfl, fun _ _ => rfl⟩
  | ask use =>
    obtain ⟨o, hprobe, rfl⟩ := Option.map_eq_some_iff.1 h
    simp only [run, hprobe]
    exact ⟨_, rfl, fun _ _ => rfl⟩
  | _ => cases h

theorem call?_veil (w : World) (t : Job) : t.veil.call? w.veil = t.call? w := by
  cases t with
  | release h =>
    cases h with
    | none => rfl
    | some o => simp only [veil, call?, ← World.veil_adjust, World.count_veil]
  | ask use => simp only [veil, call?, Grip.handle_veil]
  | _ => rfl

theorem running_veil (hook : Hook) (jobs : List Job) :
    Machine.running hook (jobs.map veil) = Machine.running hook jobs := by
  have hmarks (u : Job) : u.veil.marks hook = u.marks hook := by
    cases u <;> rfl
  simp only [Machine.running, List.any_map, Function.comp_def, hmarks]

end Job

namespace Program

variable {p : Program}

/-- No hook goes by hashes. -/
def blind (p : Program) : Bool :=
  p.hooks.all fun hooks => hooks.onHash.all Step.allBlind && hooks.onCollect.all Step.allBlind

/-- What the hooks of the program do. -/
def choose (p : Program) (m : Machine) : Choice :=
  match m.jobs with
  | [] => .idle
  | t :: rest =>
      match t.call? m.world with
      | none => .idle
      | some hook =>
          match p.script? hook with
          | none => .idle
          | some script => if Machine.running hook rest then .idle else .hook script

theorem allBlind_of_script? (h : p.blind = true) {hook : Hook} {script : List Step}
    (hs : p.script? hook = some script) : Step.allBlind script = true := by
  obtain ⟨hooks, hhooks, hscript⟩ := Option.bind_eq_some_iff.1 hs
  have hall := List.all_eq_true.1 h hooks (List.mem_of_getElem? hhooks)
  rw [Bool.and_eq_true] at hall
  split at hscript
  · simpa [hscript] using hall.1
  · simpa [hscript] using hall.2

theorem choose_veil (m : Machine) : p.choose m.veil = p.choose m := by
  obtain ⟨w, jobs, fault⟩ := m
  cases jobs with
  | nil => rfl
  | cons t rest =>
    simp only [choose, Machine.veil, List.map_cons, Job.call?_veil, Job.running_veil]

theorem blind_choose (h : p.blind = true) (m : Machine) : (p.choose m).blind = true := by
  unfold choose
  split
  · rfl
  · split
    · rfl
    · split
      · rfl
      · rename_i hscript
        split
        · rfl
        · exact allBlind_of_script? h hscript

/-- The program as a strategy. -/
def strategy (p : Program) (h : p.blind = true) : Strategy where
  choose _ := p.choose
  veiled _ := choose_veil
  blind _ := blind_choose h

/-- **A turn under a program is the turn that the program chooses.** -/
theorem respond_choose (m : Machine) : m.respond (p.choose m) = m.turn p := by
  obtain ⟨w, jobs, fault⟩ := m
  rcases fault with _ | f
  swap
  · rfl
  rcases jobs with _ | ⟨t, rest⟩
  · rfl
  simp only [Machine.respond, Machine.turn, choose]
  cases hcall : t.call? w with
  | none =>
    simp only [Choice.turn]
    cases hrun : t.run w with
    | error f => rfl
    | ok out => simp only [Machine.proceed, Job.call_run hrun, hcall]
  | some hook =>
    obtain ⟨out, hrun, hrunning⟩ := Job.run_of_call? hcall
    have hout : out.call = some hook := (Job.call_run hrun).trans hcall
    simp only [hrun, Machine.proceed, hout, Machine.enter, hrunning]
    cases p.script? hook with
    | none => simp only [Choice.turn, hrun]
    | some script =>
      simp only []
      split
      · simp only [Choice.turn, hrun]
      · simp only [Choice.turn, hrun, hout, Option.map_some]

theorem play_strategy_succ (h : p.blind = true) (m : Machine) (n : Nat) :
    (p.strategy h).play m (n + 1) = (m.turn p).bind fun a => (p.strategy h).play a n := by
  induction n with
  | zero =>
    show (some m).bind (fun a => a.respond (p.choose a)) = _
    rw [Option.bind_some, respond_choose]
    cases m.turn p <;> rfl
  | succ n ih =>
    rw [Strategy.play, ih]
    cases m.turn p <;> rfl

/-- **The play of a program is its run**, until the machine stops. -/
theorem turns_of_play (h : p.blind = true) {m a : Machine} {n : Nat}
    (ha : (p.strategy h).play m n = some a) : m.turns p n = a := by
  induction n generalizing m with
  | zero => exact Option.some.inj ha
  | succ n ih =>
    rw [play_strategy_succ] at ha
    obtain ⟨next, hnext, hplay⟩ := Option.bind_eq_some_iff.1 ha
    simp only [Machine.turns, hnext]
    exact ih hplay

end Program

end ListenerRegistry
