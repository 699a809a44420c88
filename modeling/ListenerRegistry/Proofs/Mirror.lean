import Mathlib.Data.List.Forall2
import ListenerRegistry.Proofs.Past

/-!
# Machines that do the same

Two machines with the same jobs above and the same world do the same, although other things
happened to them before, and although other jobs wait below. Not even the last answer
matters, if whatever looks at it is answered anew before.
-/

namespace ListenerRegistry

/-! ## Answers that nobody looks at -/

namespace Job

/-- The job answers before anything looks at an answer, unless it fails. -/
def answers : Job → Bool
  | perform _ | ask _ | hashed _ _ | screen _ | answer _ | answerCount _ => true
  | release _ | install _ _ | log _ | record | gather _ _ | leave _ => false

/-- Some job of the list answers before one of them looks at an answer. If no job does
either, it depends on the jobs that follow. -/
def fresh (below : Bool) (ts : List Job) : Bool :=
  ts.foldr (fun t below => !t.reads && (t.answers || below)) below

variable {below : Bool} {t : Job} {ts js : List Job}

@[simp] theorem fresh_cons :
    fresh below (t :: ts) = (!t.reads && (t.answers || fresh below ts)) := rfl

theorem fresh_append : fresh below (ts ++ js) = fresh (fresh below js) ts :=
  List.foldr_append

theorem fresh_mono (h : fresh false ts = true) : fresh below ts = true := by
  induction ts with
  | nil => cases h
  | cons t ts ih =>
    simp only [fresh_cons, Bool.and_eq_true, Bool.or_eq_true] at h ⊢
    exact ⟨h.1, h.2.imp_right ih⟩

@[simp] theorem fresh_releases {α : Type} (f : α → Handle) (l : List α) (ts : List Job) :
    fresh below (l.map (fun x => release (f x)) ++ ts) = fresh below ts := by
  induction l with
  | nil => rfl
  | cons x l ih => rw [List.map_cons, List.cons_append, fresh_cons, ih]; rfl

end Job

section

open Job

variable {w : World} {out : Outcome}

theorem HandleOp.fresh_run (op : HandleOp) : fresh false (op.run w).jobs = true := by
  cases op <;> simp only [run, copy, copyOver, overwrite] <;> (repeat' split) <;> rfl

theorem HostOp.fresh_run (op : HostOp) : fresh false (op.run w).jobs = true := by
  cases op <;> simp only [run, letGo] <;> (repeat' split) <;> rfl

theorem KeyOp.fresh_run (op : KeyOp) : fresh false (op.run w).jobs = true := by
  cases op <;> simp only [run] <;> (repeat' split) <;> rfl

theorem KeySetOp.fresh_run (op : KeySetOp) : fresh false (op.run w).jobs = true := by
  cases op with
  | drain =>
    simp only [run, fresh_releases]
    rfl
  | _ =>
    simp only [run]
    (repeat' split) <;> rfl

namespace RegistryOp

theorem fresh_register {s : Nat} {k : Key} {save : Option Nat}
    (h : register w s k save = .ok out) : fresh false out.jobs = true := by
  simp only [register, bind, Except.bind, pure, Except.pure] at h
  split at h
  · cases h
  · cases h
    split <;> rfl

theorem fresh_unlink {s : Nat} {id : ListenerId} {dest : Option Nat} {jobs : Handle → List Job}
    (hjobs : ∀ h, fresh false (jobs h) = true) (h : unlink w s id dest jobs = .ok out) :
    fresh false out.jobs = true := by
  simp only [unlink, bind, Except.bind, pure, Except.pure] at h
  split at h
  · cases h
  · cases h
    split
    · cases dest <;> exact hjobs _
    · exact hjobs none

theorem fresh_screen {sc : Screening} (h : screen w sc = .ok out) :
    fresh false out.jobs = true := by
  cases hpending : sc.pending with
  | nil =>
    simp only [screen, hpending, prune, bind, Except.bind, pure, Except.pure] at h
    split at h
    · cases h
    · cases h
      exact fresh_releases _ _ _
  | cons i pending =>
    simp only [screen, hpending] at h
    (repeat' split at h) <;> cases h <;> rfl

theorem fresh_run {op : RegistryOp} (h : op.run w = .ok out) : fresh false out.jobs = true := by
  cases op with
  | insertKey s r save =>
    simp only [run] at h
    split at h
    · cases h
      rfl
    · split at h
      · cases h
        rfl
      · exact fresh_register h
  | removeId s n dest =>
    simp only [run] at h
    split at h
    · cases h
      rfl
    · exact fresh_unlink (fun _ => rfl) h
  | clear s =>
    simp only [run, bind, Except.bind, pure, Except.pure] at h
    split at h
    · cases h
    · cases h
      exact fresh_releases _ _ _
  | discard s =>
    cases h
    exact fresh_releases _ _ _
  | _ =>
    simp only [run] at h
    (repeat' split at h) <;> cases h <;> rfl

end RegistryOp

theorem HashUse.fresh_resume {use : HashUse} {outcome : HashOutcome}
    (h : use.resume w outcome = .ok out) : fresh false out.jobs = true := by
  cases use with
  | answer | compareWith | compareTo | screen =>
    cases h
    rfl
  | makeKey k h' => cases outcome <;> cases h <;> rfl
  | insert s h' save =>
    cases outcome with
    | error e =>
      cases h
      rfl
    | ok hash => exact RegistryOp.fresh_register h
  | find | contains =>
    cases outcome with
    | error e =>
      cases h
      rfl
    | ok hash =>
      simp only [resume, bind, Except.bind, pure, Except.pure] at h
      split at h <;> cases h
      rfl
  | remove s grip dest =>
    cases outcome with
    | error e =>
      cases h
      rfl
    | ok hash =>
      simp only [resume, bind, Except.bind, pure, Except.pure] at h
      split at h
      · cases h
      · split at h
        · cases h
          rfl
        · exact RegistryOp.fresh_unlink (fun _ => rfl) h

/-- **What is to be answered is answered by the jobs that are left to do**, unless it is
answered at once. -/
theorem Job.fresh_run {t : Job} (h : t.run w = .ok out) (hsaid : t.said? w = none)
    {below : Bool} {js : List Job} (hfresh : fresh below (t :: js) = true) :
    fresh below (out.jobs ++ js) = true := by
  rw [fresh_append]
  cases t with
  | perform step =>
    refine fresh_mono ?_
    cases step with
    | op op =>
      cases op with
      | handle op =>
        cases h
        exact op.fresh_run
      | host op =>
        cases h
        exact op.fresh_run
      | key op =>
        cases h
        exact op.fresh_run
      | keySet op =>
        cases h
        exact op.fresh_run
      | registry op => exact RegistryOp.fresh_run h
    | batch steps => cases steps <;> cases h <;> rfl
  | release h' =>
    have hnone : out.jobs = [] := by
      cases h' with
      | none =>
        cases h
        rfl
      | some o =>
        simp only [run] at h
        split at h <;> cases h <;> rfl
    rw [hnone]
    exact hfresh
  | ask use =>
    refine fresh_mono ?_
    simp only [run] at h
    split at h
    · exact use.fresh_resume h
    · cases h
      rfl
  | hashed o use => exact fresh_mono (use.fresh_resume h)
  | screen sc => exact fresh_mono (RegistryOp.fresh_screen h)
  | answer | answerCount => cases hsaid
  | record | gather => cases hfresh
  | install | log | leave =>
    cases h
    exact hfresh

end

/-! ## Two machines -/

namespace Machine

/-- The two machines have the same jobs above those that wait, `js` in the first machine
and `js'` in the second. Their worlds differ in what happened before and in the last answer
only, and as far as the last answers differ, nothing will look at them. -/
inductive Mirrors (js js' : List Job) (past past' : Past) : Machine → Machine → Prop where
  | intro (w : World) (above : List Job) (fault : Option Fault) {a a' : Answer}
      (h : a = a' ∨ Job.fresh true above = true) :
      Mirrors js js' past past' ⟨w.withPast past a, above ++ js, fault⟩
        ⟨w.withPast past' a', above ++ js', fault⟩

variable {js js' : List Job} {past past' : Past} {x x' y : Machine}

theorem Mirrors.symm (h : Mirrors js js' past past' x y) : Mirrors js' js past' past y x := by
  cases h with
  | intro w above fault h => exact .intro w above fault (h.imp_left Eq.symm)

theorem Mirrors.of_stack (w : World) (top mid above : List Job) (fault : Option Fault)
    {a a' : Answer} (h : a = a' ∨ Job.fresh true (top ++ (mid ++ above)) = true) :
    Mirrors js js' past past' ⟨w.withPast past a, top ++ (mid ++ (above ++ js)), fault⟩
      ⟨w.withPast past' a', top ++ (mid ++ (above ++ js')), fault⟩ := by
  simp only [← List.append_assoc] at h ⊢
  exact .intro w (top ++ mid ++ above) fault h

/-- The same things happened to both machines since. -/
theorem Mirrors.journal (h : Mirrors js js' past past' x y) :
    ∃ events, x.world.journal = events ++ past.events ∧
      y.world.journal = events ++ past'.events := by
  cases h with
  | intro w => exact ⟨w.journal, rfl, rfl⟩

theorem Mirrors.jobs (h : Mirrors js js' past past' x y) :
    ∃ above, x.jobs = above ++ js ∧ y.jobs = above ++ js' := by
  cases h with
  | intro _ above => exact ⟨above, rfl, rfl⟩

/-- Where nothing is above the jobs that wait, the worlds differ in the last answer and in what
happened before. -/
theorem Mirrors.worlds (h : Mirrors js js' past past' x y) (hx : x.jobs = js)
    (hfault : x.fault = none) : ∃ (w : World) (a a' : Answer),
      x = ⟨w.withPast past a, js, none⟩ ∧ y = ⟨w.withPast past' a', js', none⟩ := by
  cases h with
  | @intro w above fault a a' =>
    obtain rfl : fault = none := hfault
    obtain rfl : above = [] := List.append_left_eq_self.1 hx
    exact ⟨w, a, a', rfl, rfl⟩

/-- Machines that do the same, one after the other. -/
abbrev Parallel (js js' : List Job) (past past' : Past) : List Machine → List Machine → Prop :=
  List.Forall₂ (Mirrors js js' past past')

theorem Parallel.symm {xs ys : List Machine} (h : Parallel js js' past past' xs ys) :
    Parallel js' js past' past ys xs :=
  h.flip.imp fun _ _ hxy => hxy.symm

theorem Parallel.le_length {xs ys : List Machine} (h : Parallel js js' past past' xs ys) :
    ∀ x ∈ xs, js.length ≤ x.jobs.length := by
  induction h with
  | nil => simp
  | cons hxy _ ih =>
    refine List.forall_mem_cons.2 ⟨?_, ih⟩
    obtain ⟨above, habove, -⟩ := hxy.jobs
    simp [habove]

end Machine

/-- Jobs that foreign code leaves answer for themselves. -/
theorem Machine.fresh_body (hook : Hook) (script : List Step) {ts : List Job}
    (h : Job.fresh true ts = true) : Job.fresh true (body hook script ++ ts) = true := by
  cases script with
  | nil => exact h
  | cons s script => rfl

theorem Machine.fresh_script (script : List Step) {ts : List Job} (h : Job.fresh true ts = true) :
    Job.fresh true (script.map .perform ++ ts) = true := by
  cases script with
  | nil => exact h
  | cons s script => rfl

/-- A job does the same in the two worlds, and as far as the answers differ then, what it
leaves to do answers before anything looks at them. -/
theorem Job.run_mirrored (t : Job) (w : World) {a a' : Answer} {ts : List Job}
    (h : a = a' ∨ fresh true (t :: ts) = true) (past past' : Past) :
    (∃ f, t.run (w.withPast past a) = .error f ∧ t.run (w.withPast past' a') = .error f) ∨
      ∃ (out : Outcome) (b b' : Answer), t.run (w.withPast past a) = .ok (out.withPast past b) ∧
        t.run (w.withPast past' a') = .ok (out.withPast past' b') ∧
          (b = b' ∨ fresh true (out.jobs ++ ts) = true) := by
  rcases h with rfl | hfresh
  · rcases t.run_of_past w a with ⟨f, herr⟩ | ⟨out, b, hrun⟩
    · exact Or.inl ⟨f, herr past, herr past'⟩
    · exact Or.inr ⟨out, b, b, hrun past, hrun past', Or.inl rfl⟩
  · have hreads : t.reads = false := by
      rw [fresh_cons, Bool.and_eq_true, Bool.not_eq_true'] at hfresh
      exact hfresh.1
    rw [t.run_withPast w past a hreads, t.run_withPast w past' a' hreads]
    cases hrun : t.run w with
    | error f => exact Or.inl ⟨f, rfl, rfl⟩
    | ok out =>
      refine Or.inr ⟨out, _, _, rfl, rfl, ?_⟩
      cases hsaid : t.said? w with
      | some b => exact Or.inl rfl
      | none => exact Or.inr (Job.fresh_run hrun hsaid hfresh)

namespace Machine

variable {js js' : List Job} {past past' : Past} {a b x : Machine} {ms : List Machine}

/-- **What one machine does, the other one can do as well**, as long as there are jobs above
those that wait. -/
theorem Turn.mirror (h : Turn a b) (hx : Mirrors js js' past past' a x)
    (hlonger : js.length < a.jobs.length) : ∃ y, Turn x y ∧ Mirrors js js' past past' b y := by
  cases hx with
  | @intro w above fault last last' hlast =>
    obtain ⟨t, above, rfl⟩ : ∃ t above', above = t :: above' := by
      cases above with
      | nil => exact absurd hlonger (Nat.lt_irrefl _)
      | cons t above => exact ⟨t, above, rfl⟩
    cases h with
    | @carry _ _ _ out hrun =>
      rcases t.run_mirrored w hlast past past' with ⟨f, herr, -⟩ | ⟨out', b, b', hrun', hmirror, hb⟩
      · cases herr.symm.trans hrun
      · obtain rfl := Except.ok.inj (hrun'.symm.trans hrun)
        exact ⟨_, .carry hmirror, .of_stack out'.world [] out'.jobs above none hb⟩
    | @call _ _ _ out hook script hrun hcall =>
      rcases t.run_mirrored w hlast past past' with ⟨f, herr, -⟩ | ⟨out', b, b', hrun', hmirror, hb⟩
      · cases herr.symm.trans hrun
      · obtain rfl := Except.ok.inj (hrun'.symm.trans hrun)
        exact ⟨_, .call script hmirror hcall,
          .of_stack (out'.world.emit (.enter hook)) (body hook script) out'.jobs above none
            (hb.imp_right (fresh_body hook script))⟩
    | @consult _ s _ out i pending script keep hslot hentry hrun =>
      have hlast' : last = last' ∨
          Job.fresh true (.screen { s with keep := .rule (.always keep) } :: above) = true :=
        Or.inr rfl
      rcases Job.run_mirrored _ w hlast' past past' with
        ⟨f, herr, -⟩ | ⟨out', b, b', hrun', hmirror, hb⟩
      · cases herr.symm.trans hrun
      · obtain rfl := Except.ok.inj (hrun'.symm.trans hrun)
        exact ⟨_, .consult script keep hslot hentry hmirror,
          .of_stack out'.world (script.map .perform) out'.jobs above none
            (hb.imp_right (fresh_script script))⟩
    | fail herr =>
      rcases t.run_mirrored w hlast past past' with ⟨f, herr', hmirror⟩ | ⟨out, _, _, hrun, -⟩
      · obtain rfl := Except.error.inj (herr'.symm.trans herr)
        exact ⟨_, .fail hmirror, .intro w (t :: above) (some f) hlast⟩
      · cases herr.symm.trans hrun

/-- **A run is mirrored**, as long as there are jobs above those that wait. -/
theorem Run.mirror (h : Run a ms b) (hx : Mirrors js js' past past' a x)
    (hlonger : ∀ m ∈ ms, js.length < m.jobs.length) :
    ∃ ns y, Run x ns y ∧ Parallel js js' past past' ms ns ∧
      Mirrors js js' past past' b y := by
  induction h generalizing x with
  | nil => exact ⟨[], x, .nil x, .nil, hx⟩
  | cons hturn _ ih =>
    rw [List.forall_mem_cons] at hlonger
    obtain ⟨z, hz, hmirrors⟩ := hturn.mirror hx hlonger.1
    obtain ⟨ns, y, hrun, hall, hy⟩ := ih hmirrors hlonger.2
    exact ⟨x :: ns, y, .cons hz hrun, .cons hx hall, hy⟩

/-- A run that comes to the jobs that wait is mirrored up to there. -/
theorem Run.mirror_returns (h : Run a ms b) (hx : Mirrors js js' past past' a x)
    (hb : b.jobs.length ≤ js.length) :
    ∃ during e after ns y, ms = during ++ after ∧ Run a during e ∧ Run e after b ∧ e.jobs = js ∧
      Run x ns y ∧ y.jobs = js' ∧ Parallel js js' past past' during ns ∧
        Mirrors js js' past past' e y := by
  obtain ⟨above, habove, -⟩ := hx.jobs
  obtain ⟨during, e, after, rfl, hduring, hafter, he, hlonger⟩ := h.returns js hb above habove
  obtain ⟨ns, y, hrun, hall, hy⟩ := hduring.mirror hx fun m hm => by
    obtain ⟨t, above', hm⟩ := hlonger m hm
    simp only [hm, List.length_append, List.length_cons]
    omega
  obtain ⟨above', he', hy'⟩ := hy.jobs
  obtain rfl : above' = [] := List.append_left_eq_self.1 (he'.symm.trans he)
  exact ⟨during, e, after, ns, y, rfl, hduring, hafter, he, hrun, hy', hall, hy⟩

end Machine

end ListenerRegistry
