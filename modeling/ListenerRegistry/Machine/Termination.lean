import ListenerRegistry.Machine

/-!
# The machine stops

Every run of the machine ends. A job turns into smaller ones, except that a
call may push the steps of a hook, and those may be anything. But they are
pushed above the end mark of the hook, and while that mark waits, the hook is
not entered again. So what lies above the mark has one idle hook less to enter.

The main statement is `accessible`: whatever the jobs, the machine cannot turn
for ever.
-/

namespace ListenerRegistry

mutual

/-- The operations and batches in a step. -/
def Step.size : Step → Nat
  | .op _ => 1
  | .batch steps => 1 + Step.sizes steps

/-- The sizes of several steps, and one more for each of them. -/
def Step.sizes : List Step → Nat
  | [] => 0
  | s :: rest => s.size + 1 + Step.sizes rest

end

/-- A bound on the weight of the jobs that follow the hash. -/
def HashUse.weight : HashUse → Nat
  | answer _ | makeKey _ _ | find _ _ _ | contains _ _ => 2
  | compareWith _ _ | insert _ _ _ | remove _ _ _ => 3
  | compareTo _ _ => 1
  | screen _ _ s => 6 * s.pending.length + 2 * s.doomed.length + 5

namespace Job

/-- The steps that a job still has to perform. -/
def steps : Job → Nat
  | perform s => s.size
  | gather rest _ => Step.sizes rest
  | _ => 0

/-- The turns that a job can take apart from its steps. -/
def weight : Job → Nat
  | ask use => use.weight + 2
  | hashed _ use => use.weight + 1
  | screen s => 6 * s.pending.length + 2 * s.doomed.length + 3
  | _ => 1

/-- The sum of a measure over some jobs. -/
def total (f : Job → Nat) : List Job → Nat
  | [] => 0
  | t :: ts => f t + total f ts

theorem total_append (f : Job → Nat) (a b : List Job) :
    total f (a ++ b) = total f a + total f b := by
  induction a with
  | nil => rw [List.nil_append, total, Nat.zero_add]
  | cons t a ih => rw [List.cons_append, total, total, ih, Nat.add_assoc]

def totalSteps (jobs : List Job) : Nat := total steps jobs

def totalWeight (jobs : List Job) : Nat := total weight jobs

/-- Fewer steps, or as many and less weight. -/
def Lighter (a b : List Job) : Prop :=
  totalSteps a < totalSteps b ∨ totalSteps a = totalSteps b ∧ totalWeight a < totalWeight b

theorem lighter_wf : WellFounded Lighter := by
  refine Subrelation.wf (r := InvImage (Prod.Lex (· < ·) (· < ·)) fun ts =>
    (totalSteps ts, totalWeight ts)) ?_ (InvImage.wf _ (Prod.lex Nat.lt_wfRel Nat.lt_wfRel).wf)
  rintro a b (h | ⟨h, h'⟩)
  · exact Prod.Lex.left _ _ h
  · simp only [InvImage, h]
    exact Prod.Lex.right _ h'

@[simp] theorem totalSteps_append (a b : List Job) :
    totalSteps (a ++ b) = totalSteps a + totalSteps b :=
  total_append steps a b

@[simp] theorem totalWeight_append (a b : List Job) :
    totalWeight (a ++ b) = totalWeight a + totalWeight b :=
  total_append weight a b

@[simp] theorem totalSteps_cons (t : Job) (ts : List Job) :
    totalSteps (t :: ts) = t.steps + totalSteps ts := rfl

@[simp] theorem totalWeight_cons (t : Job) (ts : List Job) :
    totalWeight (t :: ts) = t.weight + totalWeight ts := rfl

@[simp] theorem totalSteps_nil : totalSteps [] = 0 := rfl

@[simp] theorem totalWeight_nil : totalWeight [] = 0 := rfl

@[simp] theorem totalSteps_releases {α : Type} (f : α → Handle) (l : List α) :
    totalSteps (l.map fun a => release (f a)) = 0 := by
  induction l with
  | nil => rfl
  | cons a l ih => simp [ih, steps]

@[simp] theorem totalWeight_releases {α : Type} (f : α → Handle) (l : List α) :
    totalWeight (l.map fun a => release (f a)) = l.length := by
  induction l with
  | nil => rfl
  | cons a l ih => simp [ih, weight]; omega

/-- A decision adds at most one entry to remove. -/
theorem weight_screen_judge (s : Screening) (id : ListenerId) (keep : Bool) :
    weight (screen (s.judge id keep)) ≤ weight (screen s) + 2 := by
  have := s.length_judge_doomed id keep
  simp only [weight, Screening.judge_pending]
  omega

theorem Lighter.append {a b : List Job} (h : Lighter a b) (c : List Job) :
    Lighter (a ++ c) (b ++ c) := by
  unfold Lighter at *
  simp only [totalSteps_append, totalWeight_append]
  omega

end Job

/-! ## A job becomes lighter -/

open Job

@[simp] theorem Outcome.say_totalSteps (w : World) (a : Answer) :
    totalSteps (Outcome.say w a).jobs = 0 := rfl

theorem HandleOp.run_steps (w : World) (op : HandleOp) : totalSteps (op.run w).jobs = 0 := by
  cases op <;> simp only [HandleOp.run, HandleOp.copy, HandleOp.copyOver, HandleOp.overwrite] <;>
    (repeat' split) <;> rfl

theorem HostOp.run_steps (w : World) (op : HostOp) : totalSteps (op.run w).jobs = 0 := by
  cases op <;> simp only [HostOp.run, HostOp.letGo] <;> (repeat' split) <;> rfl

theorem KeyOp.run_steps (w : World) (op : KeyOp) : totalSteps (op.run w).jobs = 0 := by
  cases op <;> simp only [KeyOp.run] <;> (repeat' split) <;> rfl

theorem KeySetOp.run_steps (w : World) (op : KeySetOp) : totalSteps (op.run w).jobs = 0 := by
  cases op with
  | drain => simp [KeySetOp.run, steps]
  | _ =>
    simp only [KeySetOp.run]
    (repeat' split) <;> rfl

theorem Outcome.deliver_steps (w : World) (dest : Option Nat) (h : Handle) (ts : List Job) :
    totalSteps (Outcome.deliver w dest h ts).jobs = totalSteps ts := by
  cases dest <;> simp [Outcome.deliver, Outcome.put, steps]

theorem Outcome.deliver_weight (w : World) (dest : Option Nat) (h : Handle) (ts : List Job) :
    totalWeight (Outcome.deliver w dest h ts).jobs = totalWeight ts + 1 := by
  cases dest <;> simp [Outcome.deliver, Outcome.put, weight] <;> omega

/-- Unlinking takes out no more entries than it is asked to. -/
theorem Registry.prune_length {r r' : Registry} {ids : List ListenerId}
    {removed : List (ListenerId × Key)} (h : r.prune ids = .ok (removed, r')) :
    removed.length ≤ ids.length := by
  induction ids generalizing r r' removed with
  | nil => simp [Registry.prune] at h; simp [h.1.symm]
  | cons id ids ih =>
    simp only [Registry.prune, bind, Except.bind] at h
    split at h
    · cases h
    · rename_i found _
      split at h
      · cases h
      · rename_i rest hrest
        have := ih hrest
        injection h with h
        injection h with h _
        subst h
        cases found.1 <;> simp <;> omega

namespace RegistryOp

theorem register_jobs {w : World} {s : Nat} {k : Key} {save : Option Nat} {out : Outcome}
    (h : register w s k save = .ok out) :
    totalSteps out.jobs = 0 ∧ totalWeight out.jobs ≤ 3 := by
  simp only [register, bind, Except.bind] at h
  split at h
  · cases h
  · cases h
    split <;> simp [Outcome.say, steps, weight]

theorem unlink_jobs {w : World} {s : Nat} {id : ListenerId} {dest : Option Nat}
    {jobs : Handle → List Job} {n : Nat} {out : Outcome} (h : unlink w s id dest jobs = .ok out)
    (hs : ∀ h, totalSteps (jobs h) = 0) (hw : ∀ h, totalWeight (jobs h) ≤ n) :
    totalSteps out.jobs = 0 ∧ totalWeight out.jobs ≤ n + 1 := by
  simp only [unlink, bind, Except.bind] at h
  split at h
  · cases h
  · cases h
    split
    · rename_i k _
      rw [Outcome.deliver_steps, Outcome.deliver_weight]
      exact ⟨hs _, Nat.add_le_add_right (hw _) 1⟩
    · exact ⟨hs _, Nat.le_succ_of_le (hw _)⟩

theorem screen_jobs {w : World} {s : Screening} {out : Outcome} (h : screen w s = .ok out) :
    Lighter out.jobs [.screen s] := by
  unfold screen at h
  split at h
  · rename_i hp
    simp only [prune, bind, Except.bind] at h
    split at h
    · cases h
    · rename_i v hv
      have := Registry.prune_length hv
      cases h
      refine .inr ⟨?_, ?_⟩
      · simp [steps]
      · simp [weight, hp] at *
        omega
  · rename_i i pending hp
    dsimp only at h
    split at h
    · cases h
      refine .inr ⟨rfl, ?_⟩
      simp [weight, hp]
    · split at h
      · cases h
      · split at h
        · cases h
          refine .inr ⟨rfl, ?_⟩
          simp [weight, HashUse.weight, hp]
          omega
        · cases h
          refine .inr ⟨rfl, Nat.lt_of_le_of_lt (weight_screen_judge ..) ?_⟩
          simp [weight, hp]
          omega

theorem run_steps {w : World} {op : RegistryOp} {out : Outcome} (h : op.run w = .ok out) :
    totalSteps out.jobs = 0 := by
  cases op with
  | insert s source save =>
    simp only [run] at h
    split at h <;> cases h <;> rfl
  | insertKey s k save =>
    simp only [run] at h
    split at h
    · cases h; rfl
    · split at h
      · cases h; rfl
      · exact (register_jobs h).1
  | find s probe save =>
    simp only [run] at h
    split at h
    · cases h; rfl
    · split at h <;> cases h <;> rfl
  | contains s probe =>
    simp only [run] at h
    split at h
    · cases h; rfl
    · split at h <;> cases h <;> rfl
  | remove s probe dest =>
    simp only [run] at h
    split at h
    · cases h; rfl
    · split at h <;> cases h <;> rfl
  | get s id =>
    simp only [run] at h
    split at h <;> cases h <;> rfl
  | removeId s id dest =>
    simp only [run] at h
    split at h
    · cases h; rfl
    · exact (unlink_jobs (n := 1) h (fun _ => rfl) (fun _ => by simp [weight])).1
  | sameId a b =>
    simp only [run] at h
    split at h <;> cases h <;> rfl
  | retain s keep => simp only [run] at h; cases h; rfl
  | clear s =>
    simp only [run, bind, Except.bind] at h
    split at h
    · cases h
    · cases h
      simp [steps]
  | discard s =>
    simp only [run] at h
    cases h
    simp [steps]
  | size s => simp only [run] at h; cases h; rfl
  | entries s => simp only [run] at h; cases h; rfl

end RegistryOp

theorem HashUse.resume_jobs {w : World} {outcome : HashOutcome} {use : HashUse} {out : Outcome}
    (h : use.resume w outcome = .ok out) :
    totalSteps out.jobs = 0 ∧ totalWeight out.jobs ≤ use.weight := by
  cases use with
  | answer probe =>
    simp only [resume] at h
    cases h
    simp [steps, Job.weight, HashUse.weight]
  | compareWith a b =>
    simp only [resume] at h
    cases h
    simp [steps, Job.weight, HashUse.weight]
  | compareTo first b =>
    simp only [resume] at h
    cases h
    simp [Outcome.say, steps, Job.weight, HashUse.weight]
  | makeKey k h' =>
    simp only [resume] at h
    split at h <;> cases h <;>
      simp [Outcome.putKey, steps, Job.weight, HashUse.weight]
  | insert s h' save =>
    simp only [resume] at h
    split at h
    · exact RegistryOp.register_jobs h
    · cases h
      simp [steps, Job.weight, HashUse.weight]
  | find s probe save =>
    simp only [resume, bind, Except.bind] at h
    split at h
    · cases h; simp [steps, Job.weight, HashUse.weight]
    · split at h
      · cases h
      · cases h; simp [steps, Job.weight, HashUse.weight]
  | contains s probe =>
    simp only [resume, bind, Except.bind] at h
    split at h
    · cases h; simp [steps, Job.weight, HashUse.weight]
    · split at h
      · cases h
      · cases h; simp [steps, Job.weight, HashUse.weight]
  | remove s probe dest =>
    simp only [resume, bind, Except.bind] at h
    split at h
    · cases h; simp [steps, Job.weight, HashUse.weight]
    · split at h
      · cases h
      · split at h
        · cases h; simp [steps, Job.weight, HashUse.weight]
        · exact RegistryOp.unlink_jobs (n := 2) h (fun _ => rfl)
            (fun _ => by simp [Job.weight])
  | screen bound id s =>
    simp only [resume] at h
    cases h
    exact ⟨rfl, weight_screen_judge ..⟩

/-- An operation leaves no steps to perform. -/
theorem Op.run_steps {w : World} {op : Op} {out : Outcome} (h : op.run w = .ok out) :
    totalSteps out.jobs = 0 := by
  cases op with
  | handle op => cases h; exact op.run_steps w
  | host op => cases h; exact op.run_steps w
  | key op => cases h; exact op.run_steps w
  | keySet op => cases h; exact op.run_steps w
  | registry op => exact RegistryOp.run_steps h

/-- Carrying out a job leaves lighter ones. -/
theorem Job.run_lighter {w : World} {t : Job} {out : Outcome} (h : t.run w = .ok out) :
    Lighter out.jobs [t] := by
  cases t with
  | perform s =>
    cases s with
    | op op => exact .inl (by simp [Op.run_steps h, steps, Step.size])
    | batch ss =>
      cases ss with
      | nil => cases h; exact .inl (by simp [steps, Step.size, Step.sizes, Outcome.say])
      | cons s rest =>
        cases h
        refine .inl ?_
        simp [steps, Step.size, Step.sizes]
        omega
  | release h' =>
    cases h' with
    | none => cases h; exact .inr ⟨rfl, by simp [weight]⟩
    | some o =>
      simp only [run] at h
      split at h <;> cases h <;> exact .inr ⟨rfl, by simp [weight]⟩
  | ask use =>
    simp only [run] at h
    split at h
    · have := HashUse.resume_jobs h
      exact .inr ⟨by simp [this.1, steps], by simp [weight]; omega⟩
    · cases h
      exact .inr ⟨rfl, by simp [weight]⟩
  | hashed o use =>
    have := HashUse.resume_jobs h
    exact .inr ⟨by simp [this.1, steps], by simp [weight]; omega⟩
  | screen s => exact RegistryOp.screen_jobs h
  | gather rest answers =>
    cases rest with
    | nil => cases h; exact .inr ⟨rfl, by simp [weight]⟩
    | cons s rest =>
      cases h
      refine .inl ?_
      simp [steps, Step.sizes]
  | install h' new | log m | answer a | answerCount o | record | leave hook =>
    cases h
    exact .inr ⟨rfl, by simp [weight]⟩

/-! ## Idle hooks -/

/-- The hooks that the objects of a program may have. -/
def Program.allHooks (p : Program) : List Hook :=
  (List.range p.hooks.length).flatMap fun o => [⟨.hash, o⟩, ⟨.collect, o⟩]

theorem Program.mem_allHooks {p : Program} {hook : Hook} {script : List Step}
    (h : p.script? hook = some script) : hook ∈ p.allHooks := by
  obtain ⟨kind, o⟩ := hook
  have ho : o < p.hooks.length := by
    simp only [Program.script?, Option.bind_eq_some_iff] at h
    obtain ⟨_, h, _⟩ := h
    exact (List.getElem?_eq_some_iff.1 h).1
  simp only [Program.allHooks, List.mem_flatMap, List.mem_range]
  exact ⟨o, ho, by cases kind <;> simp⟩

theorem countP_lt_of_mem {α : Type} {p q : α → Bool} {a : α} : ∀ {l : List α},
    (∀ x, p x → q x) → a ∈ l → q a = true → p a = false → l.countP p < l.countP q
  | [], _, ha, _, _ => by simp at ha
  | x :: l, hpq, ha, hq, hp => by
    have hle : l.countP p ≤ l.countP q := List.countP_mono_left fun x _ => hpq x
    rcases List.mem_cons.1 ha with rfl | ha
    · simp [hq, hp]
      omega
    · have := countP_lt_of_mem hpq ha hq hp
      by_cases hx : p x = true
      · simp [hx, hpq x hx, this]
      · simp [hx, List.countP_cons]
        omega

namespace Machine

/-- The number of hooks that a call could still enter. -/
def idle (p : Program) (jobs : List Job) : Nat :=
  p.allHooks.countP fun hook => !running hook jobs

theorem running_append (hook : Hook) (a b : List Job) :
    running hook (a ++ b) = (running hook a || running hook b) := by
  simp [running]

theorem idle_lt {p : Program} {hook : Hook} {script : List Step} {jobs base : List Job}
    (hs : p.script? hook = some script) (hr : running hook (jobs ++ base) = false) :
    idle p (.leave hook :: (jobs ++ base)) < idle p base := by
  rw [running_append, Bool.or_eq_false_iff] at hr
  refine countP_lt_of_mem (a := hook) ?_ (Program.mem_allHooks hs) (by simp [hr.2]) (by
    simp [running, Job.marks])
  intro h hh
  simp only [running, List.any_cons, List.any_append, Bool.not_eq_true', Bool.or_eq_false_iff]
    at hh ⊢
  exact hh.2.2

/-- `Next p a b` says that one turn leads from `b` to `a`. -/
def Next (p : Program) (a b : Machine) : Prop := b.turn p = some a

theorem accessible_of_fault {p : Program} (w : World) (jobs : List Job) (f : Fault) :
    Acc (Next p) ⟨w, jobs, some f⟩ :=
  ⟨_, fun a h => by simp [Next, turn] at h⟩

/-- A machine without jobs has stopped. -/
theorem accessible_nil {p : Program} (w : World) : Acc (Next p) ⟨w, [], none⟩ :=
  ⟨_, fun a h => by simp [Next, turn] at h⟩

/-- The end mark of a hook does no harm. -/
theorem accessible_leave {p : Program} {jobs : List Job} (h : ∀ w, Acc (Next p) ⟨w, jobs, none⟩)
    (hook : Hook) (w : World) : Acc (Next p) ⟨w, .leave hook :: jobs, none⟩ := by
  refine ⟨_, fun a ha => ?_⟩
  simp only [Next, turn, Job.run, proceed, List.nil_append, Option.some.injEq] at ha
  subst ha
  exact h _

/-- If the machine stops on the jobs `base` in every world, it also stops when
other jobs come first. -/
theorem accessible_append (p : Program) : ∀ (n : Nat) (base : List Job), idle p base = n →
    (∀ w, Acc (Next p) ⟨w, base, none⟩) → ∀ jobs w, Acc (Next p) ⟨w, jobs ++ base, none⟩ := by
  intro n
  induction n using Nat.strongRecOn with
  | ind n outer =>
    intro base hn hbase jobs
    induction jobs using Job.lighter_wf.induction with
    | h jobs inner =>
      intro w
      cases jobs with
      | nil => exact hbase w
      | cons t jobs =>
        refine ⟨_, fun a ha => ?_⟩
        simp only [Next, turn, List.cons_append] at ha
        split at ha
        · rename_i out hout
          have hlight : Lighter (out.jobs ++ jobs) (t :: jobs) :=
            (Job.run_lighter hout).append jobs
          have hrest : ∀ w, Acc (Next p) ⟨w, out.jobs ++ (jobs ++ base), none⟩ := fun w => by
            simpa using inner _ hlight w
          injection ha with ha
          subst ha
          unfold proceed
          split
          · exact hrest _
          · rename_i hook _
            unfold enter
            split
            · exact hrest _
            · rename_i script hscript
              split
              · exact hrest _
              · rename_i hrun
                -- The steps of the hook lie above its end mark, where it cannot be entered.
                have hidle : idle p (.leave hook :: (out.jobs ++ jobs ++ base)) < n := by
                  rw [← hn]
                  exact idle_lt hscript (by simpa using hrun)
                have hmark := accessible_leave hrest hook
                rw [← List.append_assoc] at hmark
                simpa [body] using outer _ hidle _ rfl hmark _ _
        · injection ha with ha
          subst ha
          exact accessible_of_fault _ _ _

/-- The machine cannot turn for ever. -/
theorem accessible (p : Program) : ∀ m : Machine, Acc (Next p) m
  | ⟨w, jobs, none⟩ => by
    simpa using accessible_append p _ [] rfl (fun w => accessible_nil w) jobs w
  | ⟨w, jobs, some f⟩ => accessible_of_fault w jobs f

end Machine

end ListenerRegistry
