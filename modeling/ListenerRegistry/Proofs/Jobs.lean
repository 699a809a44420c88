import ListenerRegistry.Proofs.Effect
import ListenerRegistry.Proofs.Run

/-!
# The jobs that operations leave

`Job.Leads` says once what a job may leave to do; the rest is read off it. Two kinds
of jobs need attention. A retaining step goes through its registry in many turns,
and an assignment overwrites a register without releasing what it finds there. All
other operations leave ordinary jobs only.
-/

namespace ListenerRegistry

/-! ## What a job leaves to do -/

/-- What an operation may ask a hash for. What is to be stored is not null. -/
def Op.Needs : Op → HashUse → Prop
  | .handle (.hash _), .answer _ => True
  | .handle (.hashEq a b), .compareWith a' b' => a' = a ∧ b' = b
  | .key (.make k _), .makeKey k' _ => k' = k
  | .registry (.insert s _ save), .insert s' h save' => s' = s ∧ save' = save ∧ h ≠ none
  | .registry (.find s _ save), .find s' _ save' => s' = s ∧ save' = save
  | .registry (.contains s _), .contains s' _ => s' = s
  | .registry (.remove s _ dest), .remove s' _ dest' => s' = s ∧ dest' = dest
  | _, _ => False

/-- The hash that a job asks for, or waits for. -/
def Job.use? : Job → Option HashUse
  | ask use | hashed _ use => some use
  | _ => none

/-- In the world `w`, the first job may leave the second one to do. -/
inductive Job.Leads (w : World) : Job → Job → Prop where
  | release (t : Job) (h : Handle) : Leads w t (release h)
  | answer (t : Job) (a : Answer) : Leads w t (answer a)
  | answerCount (t : Job) (o : ObjectId) : Leads w t (answerCount o)
  | log (t : Job) (e : Error) : Leads w t (log (.rejecting e))
  | install (r src : Nat) (new : Handle) :
      Leads w (perform (.op (.handle (.assign r src)))) (install r new)
  | begins (s : Step) (rest : List Step) : Leads w (perform (.batch (s :: rest))) (perform s)
  | gathers (s : Step) (rest : List Step) :
      Leads w (perform (.batch (s :: rest))) (gather rest [])
  | next (s : Step) (rest : List Step) (answers : List Answer) :
      Leads w (gather (s :: rest) answers) (perform s)
  | gathersOn (s : Step) (rest : List Step) (answers : List Answer) :
      Leads w (gather (s :: rest) answers) (gather rest (answers ++ [w.answer]))
  | asks {op : Op} {use : HashUse} (h : op.Needs use) : Leads w (perform (.op op)) (ask use)
  | asksAgain {t : Job} {a b : Nat} (h : t.use? = some (.compareWith a b)) (first : HashOutcome) :
      Leads w t (ask (.compareTo first b))
  | awaits {use : HashUse} {o : ObjectId} (h : use.probe.handle w = some o) :
      Leads w (ask use) (hashed o use)
  | retains (s : Nat) (keep : Keep) :
      Leads w (perform (.op (.registry (.retain s keep))))
        (screen ⟨s, keep, (w.registry s).size, (w.registry s).slotNumbers, 0, []⟩)
  | visits {s s' : Screening} (h : s'.keep = s.keep) : Leads w (screen s) (screen s')
  | considers {s s' : Screening} {bound : UInt64} (id : ListenerId)
      (h : s.keep = .hashBelow bound) : Leads w (screen s) (ask (.screen bound id s'))
  | judges {t : Job} {bound : UInt64} {id : ListenerId} {s : Screening}
      (h : t.use? = some (.screen bound id s)) (keep : Bool) :
      Leads w t (screen (s.judge id keep))

attribute [simp] Job.Leads.release Job.Leads.answer Job.Leads.answerCount Job.Leads.log
  Job.Leads.install Job.Leads.begins Job.Leads.gathers Job.Leads.next Job.Leads.gathersOn
  Job.Leads.retains

section

variable {w : World}

theorem Job.Leads.single {t u : Job} (h : t.Leads w u) : ∀ v ∈ [u], t.Leads w v := by
  simpa using h

theorem HandleOp.leads_run (op : HandleOp) :
    ∀ u ∈ (op.run w).jobs, Job.Leads w (.perform (.op (.handle op))) u := by
  cases op with
  | hash probe =>
    simp only [run]
    split
    · exact Job.Leads.single (.asks trivial)
    · simp [Outcome.say]
  | hashEq a b => exact Job.Leads.single (.asks ⟨rfl, rfl⟩)
  | _ =>
    simp only [run, copy, copyOver, overwrite, Outcome.put, Outcome.say]
    (repeat' split) <;> simp

theorem HostOp.leads_run (op : HostOp) :
    ∀ u ∈ (op.run w).jobs, Job.Leads w (.perform (.op (.host op))) u := by
  cases op <;> simp only [run, letGo, Outcome.put, Outcome.say] <;> (repeat' split) <;> simp

theorem KeyOp.leads_run (op : KeyOp) :
    ∀ u ∈ (op.run w).jobs, Job.Leads w (.perform (.op (.key op))) u := by
  cases op with
  | make k source =>
    simp only [run]
    split
    · exact Job.Leads.single (.asks rfl)
    · simp [Outcome.say]
  | _ =>
    simp only [run, Outcome.put, Outcome.putKey, Outcome.say]
    (repeat' split) <;> simp

theorem KeySetOp.leads_run (op : KeySetOp) :
    ∀ u ∈ (op.run w).jobs, Job.Leads w (.perform (.op (.keySet op))) u := by
  cases op with
  | drain =>
    intro u hu
    simp only [run, List.mem_append, List.mem_map, List.mem_singleton] at hu
    rcases hu with ⟨key, -, rfl⟩ | rfl <;> simp
  | _ =>
    simp only [run, Outcome.say]
    (repeat' split) <;> simp

theorem Outcome.Takes.leads {out : Outcome} {v : World} {s : Nat} {r : Registry} {answer : Answer}
    (h : out.Takes v s r answer) (t : Job) : ∀ u ∈ out.jobs, t.Leads w u := by
  obtain ⟨hs, hjobs⟩ := h.jobs
  intro u hu
  rw [hjobs, List.mem_append, List.mem_map, List.mem_singleton] at hu
  rcases hu with ⟨h, -, rfl⟩ | rfl <;> simp

theorem RegistryOp.leads_run (hw : w.Consistent) {op : RegistryOp} {out : Outcome}
    (h : op.run w = .ok out) : ∀ u ∈ out.jobs, Job.Leads w (.perform (.op (.registry op))) u := by
  cases ha : op.action? w with
  | some sa =>
    obtain ⟨s, a⟩ := sa
    obtain ⟨r, hp, -⟩ := Registry.perform_eq (hw s) a
    obtain ⟨out', hout, htakes⟩ := takes_run ha hp
    obtain rfl := Except.ok.inj (hout.symm.trans h)
    exact htakes.leads _
  | none =>
    cases op with
    | insert s source save =>
      simp only [run] at h
      split at h <;> cases h
      · simp [Outcome.say]
      · simp [Outcome.say]
      · exact Job.Leads.single (.asks ⟨rfl, rfl, by simp⟩)
    | insertKey s k save =>
      simp only [run] at h
      split at h
      · cases h
        simp [Outcome.say]
      · rename_i key hkey
        simp only [action?, hkey, Option.bind_some] at ha
        split at ha
        · rename_i hnull
          simp only [hnull] at h
          cases h
          simp [Outcome.say]
        · cases ha
    | find s probe save | contains s probe | remove s probe dest =>
      simp only [run] at h
      split at h
      · cases h
        simp [Outcome.say]
      · split at h <;> cases h
        · simp [Outcome.say]
        · exact Job.Leads.single (.asks (by simp [Op.Needs]))
    | get s n | removeId s n dest =>
      have hid : w.savedId? n = none := Option.map_eq_none_iff.1 ha
      simp only [run, hid] at h
      cases h
      simp [Outcome.say]
    | sameId a b =>
      simp only [run] at h
      split at h <;> cases h <;> simp [Outcome.say]
    | retain s keep =>
      cases h
      simp
    | clear | discard | size | entries => cases ha

/-- What follows a hash does not depend on how it was asked for. -/
theorem HashUse.leads_resume {v : World} (hv : v.Consistent) {outcome : HashOutcome}
    {use : HashUse} {out : Outcome} (h : use.resume v outcome = .ok out) {t : Job}
    (ht : t.use? = some use) : ∀ u ∈ out.jobs, t.Leads w u := by
  cases ha : use.action? v outcome with
  | some sa =>
    obtain ⟨s, a⟩ := sa
    obtain ⟨r, hp, -⟩ := Registry.perform_eq (hv s) a
    obtain ⟨out', hout, htakes⟩ := takes_resume ha hp
    obtain rfl := Except.ok.inj (hout.symm.trans h)
    exact htakes.leads _
  | none =>
    cases use with
    | insert | find | contains | remove =>
      cases outcome with
      | error e =>
        cases h
        simp
      | ok hash => cases ha
    | makeKey k h' => cases outcome <;> cases h <;> simp [Outcome.putKey]
    | compareWith a b =>
      cases h
      exact Job.Leads.single (.asksAgain ht outcome)
    | answer | compareTo =>
      cases h
      simp [Outcome.say]
    | screen bound id s =>
      cases h
      exact Job.Leads.single (.judges ht _)

theorem RegistryOp.leads_screen (hw : w.Consistent) {s : Screening} {out : Outcome}
    (h : screen w s = .ok out) : ∀ u ∈ out.jobs, Job.Leads w (.screen s) u := by
  cases hpending : s.pending with
  | nil =>
    obtain ⟨r, hp, -⟩ := Registry.perform_eq (hw s.registry) (.strike s.doomed.reverse)
    obtain ⟨out', hout, htakes⟩ := takes_screen hpending hp
    obtain rfl := Except.ok.inj (hout.symm.trans h)
    exact htakes.leads _
  | cons i pending =>
    simp only [screen, hpending] at h
    split at h
    · cases h
      exact Job.Leads.single (.visits rfl)
    · split at h
      · cases h
      · split at h <;> cases h
        · rename_i hkeep
          exact Job.Leads.single (.considers _ hkeep)
        · exact Job.Leads.single (.visits (Screening.judge_keep _ _ _))

/-- **A job leaves to do what it leads to**, and nothing else. -/
theorem Job.leads_run (hw : w.Consistent) {t : Job} {out : Outcome} (h : t.run w = .ok out) :
    ∀ u ∈ out.jobs, t.Leads w u := by
  cases t with
  | perform step =>
    cases step with
    | op op =>
      cases op with
      | handle op => cases h; exact op.leads_run
      | host op => cases h; exact op.leads_run
      | key op => cases h; exact op.leads_run
      | keySet op => cases h; exact op.leads_run
      | registry op => exact RegistryOp.leads_run hw h
    | batch steps => cases steps <;> cases h <;> simp [Outcome.say]
  | release h' =>
    cases h' with
    | none => cases h; simp
    | some o =>
      simp only [run] at h
      split at h <;> cases h <;> simp
  | ask use =>
    simp only [run] at h
    split at h
    · exact HashUse.leads_resume hw h rfl
    · rename_i o hprobe
      cases h
      exact Leads.single (.awaits hprobe)
  | hashed o use =>
    have hw' : (w.modifyObject o ForeignObject.countHash).Consistent := hw
    exact HashUse.leads_resume hw' h rfl
  | screen s => exact RegistryOp.leads_screen hw h
  | gather steps answers => cases steps <;> cases h <;> simp
  | install | log | answer | answerCount | record | leave => cases h; simp

end

/-! ## Ordinary jobs -/

/-- The retaining step that a hash was asked for. -/
def HashUse.screening? : HashUse → Option Screening
  | screen _ _ s => some s
  | _ => none

/-- The retaining step that a job belongs to. -/
def Job.screening? : Job → Option Screening
  | screen s => some s
  | ask use | hashed _ use => use.screening?
  | _ => none

/-- The job belongs to no retaining step, and overwrites no register. -/
def Job.Ordinary (t : Job) : Prop :=
  t.screening? = none ∧ ∀ h new, t ≠ .install h new

theorem Job.ordinary_of_foreign {t : Job} (h : t.Foreign) : t.Ordinary := by
  cases t with
  | perform | record | leave => exact ⟨rfl, fun _ _ => Job.noConfusion⟩
  | _ => exact h.elim

theorem Outcome.Takes.ordinary {out : Outcome} {w : World} {s : Nat} {r : Registry}
    {answer : Answer} (h : out.Takes w s r answer) : ∀ u ∈ out.jobs, u.Ordinary := by
  obtain ⟨hs, hjobs⟩ := h.jobs
  intro u hu
  rw [hjobs, List.mem_append, List.mem_map, List.mem_singleton] at hu
  rcases hu with ⟨h, -, rfl⟩ | rfl <;> exact ⟨rfl, fun _ _ => Job.noConfusion⟩

/-- No operation asks for a hash on behalf of a retaining step. -/
theorem Op.Needs.screening? {op : Op} {use : HashUse} (h : op.Needs use) :
    use.screening? = none := by
  cases use with
  | screen => cases op with
    | handle op | host op | key op | keySet op | registry op => cases op <;> exact h.elim
  | _ => rfl

/-- **Ordinary jobs leave ordinary jobs**, unless they start a retaining step or
an assignment. -/
theorem Job.ordinary_run {w : World} (hw : w.Consistent) {t : Job} {out : Outcome}
    (h : t.run w = .ok out) (ht : t.screening? = none)
    (hretain : ∀ s keep, t ≠ .perform (.op (.registry (.retain s keep))))
    (hassign : ∀ r src, t ≠ .perform (.op (.handle (.assign r src)))) :
    ∀ u ∈ out.jobs, u.Ordinary := by
  intro u hu
  have hbelongs : ∀ use : HashUse, t.use? = some use → use.screening? = none := by
    intro use huse
    cases t with
    | ask | hashed => cases huse; exact ht
    | _ => cases huse
  cases Job.leads_run hw h u hu with
  | install r src new => exact absurd rfl (hassign r src)
  | retains s keep => exact absurd rfl (hretain s keep)
  | asks hneeds => exact ⟨hneeds.screening?, fun _ _ => Job.noConfusion⟩
  | awaits => exact ⟨ht, fun _ _ => Job.noConfusion⟩
  | visits | considers => cases ht
  | judges huse => cases hbelongs _ huse
  | _ => exact ⟨rfl, fun _ _ => Job.noConfusion⟩

/-- Only an assignment overwrites a register. -/
theorem Job.settled_run {w : World} (hw : w.Consistent) {t : Job} {out : Outcome}
    (h : t.run w = .ok out) (hassign : ∀ r src, t ≠ .perform (.op (.handle (.assign r src)))) :
    ∀ u ∈ out.jobs, ∀ r new, u ≠ .install r new := by
  rintro u hu r new rfl
  cases Job.leads_run hw h _ hu with
  | install r src new => exact hassign r src rfl

end ListenerRegistry
