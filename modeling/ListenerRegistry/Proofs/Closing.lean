import ListenerRegistry.Proofs.Serialization

/-!
# How operations close

An operation that has come to its answer has handles left to release and messages to log.
A finalizer that a release calls runs first and may do anything, also release handles of
its own. What tells its turns from those of the operation is the end mark of its hook,
which is on the stack as long as the hook runs.
-/

namespace ListenerRegistry

namespace Job

/-- The job is the end mark of a hook. -/
def ends : Job → Bool
  | leave _ => true
  | _ => false

/-- The handle that the job releases. -/
def released? : Job → Option Handle
  | release h => some h
  | _ => none

theorem released?_releases {α : Type} (f : α → Handle) (l : List α) :
    (l.map fun x => release (f x)).filterMap released? = l.map f := by
  rw [List.filterMap_map, ← List.filterMap_eq_map]
  rfl

theorem Closing.ends {u : Job} (h : u.Closing) : u.ends = false := by
  cases u with
  | release | log => rfl
  | _ => exact h.elim

/-- A job that belongs to the end of an operation leaves nothing to do. -/
theorem Closing.run {u : Job} (h : u.Closing) (w : World) :
    (∃ out, u.run w = .ok out ∧ out.jobs = []) ∧ u.visits = false ∧ u.action? w = none := by
  cases u with
  | release p =>
    refine ⟨?_, rfl, rfl⟩
    cases p with
    | none => exact ⟨_, rfl, rfl⟩
    | some o =>
      simp only [Job.run]
      split <;> exact ⟨_, rfl, rfl⟩
  | log => exact ⟨⟨_, rfl, rfl⟩, rfl, rfl⟩
  | _ => exact h.elim

end Job

namespace Machine

variable {a b m : Machine} {t : Job} {js rest : List Job} {ms : List Machine} {out : Outcome}

/-- A hook is running above the jobs `rest`. -/
def hosts (rest : List Job) (m : Machine) : Bool :=
  (m.jobs.take (m.jobs.length - rest.length)).any Job.ends

/-- The handle that an operation above the jobs `rest` releases in the next turn. What a
hook releases meanwhile is not the operation's. -/
def released? (rest : List Job) (m : Machine) : Option Handle :=
  match m.jobs with
  | .release h :: _ => if m.hosts rest then none else some h
  | _ => none

/-- The handles that an operation above the jobs `rest` releases, in order. -/
def releases (rest : List Job) (ms : List Machine) : List Handle :=
  ms.filterMap (released? rest)

theorem releases_append (rest : List Job) (ms ns : List Machine) :
    releases rest (ms ++ ns) = releases rest ms ++ releases rest ns :=
  List.filterMap_append

theorem hosts_of_jobs (above : List Job) (h : m.jobs = above ++ rest) :
    m.hosts rest = above.any Job.ends := by
  rw [hosts, h, List.length_append, Nat.add_sub_cancel, List.take_left']
  rfl

/-! ## Hooks -/

/-- A hook is running, and when it ends the jobs `js` are up. -/
def Hosts (js : List Job) (m : Machine) : Prop :=
  ∃ above hook, m.jobs = above ++ .leave hook :: js

theorem Hosts.length (h : m.Hosts js) : js.length < m.jobs.length := by
  obtain ⟨above, hook, hjobs⟩ := h
  simp [hjobs]
  omega

theorem Hosts.hosts {above : List Job} (h : m.Hosts (above ++ rest)) : m.hosts rest = true := by
  obtain ⟨above', hook, hjobs⟩ := h
  rw [hosts_of_jobs (above' ++ .leave hook :: above) (by simp [hjobs])]
  exact List.any_eq_true.2 ⟨.leave hook, by simp, rfl⟩

theorem released?_of_hosts (h : m.hosts rest = true) : m.released? rest = none := by
  unfold released?
  split
  · rw [if_pos h]
  · rfl

theorem released?_of_jobs (hjobs : m.jobs = t :: js) (h : m.hosts rest = false) :
    m.released? rest = t.released? := by
  unfold released?
  rw [hjobs]
  cases t with
  | release => exact if_neg (by simp [h])
  | _ => rfl

/-- While a hook runs, nothing is released but by the hook. -/
theorem releases_of_hosts (h : ∀ x ∈ ms, x.hosts rest = true) : releases rest ms = [] :=
  List.filterMap_eq_nil_iff.2 fun x hx => released?_of_hosts (h x hx)

/-- A job that asks nobody is followed by its own jobs, and if it calls the host, perhaps by
a hook before them. -/
theorem Turn.of_run (h : Turn a b) (hjobs : a.jobs = t :: js) (hrun : t.run a.world = .ok out)
    (ht : t.visits = false) : b.jobs = out.jobs ++ js ∨ b.Hosts (out.jobs ++ js) := by
  cases h.follows hjobs hrun with
  | next => exact Or.inl rfl
  | hook hook script =>
    refine Or.inr ⟨script.flatMap (fun s => [.perform s, .record]), hook, ?_⟩
    rw [body, List.append_assoc]
    rfl
  | predicate _ _ hscreen =>
    subst hscreen
    cases ht

/-- **After a job that may call the host**, its own jobs come up once the hook is done, if
the run goes that far. -/
theorem Run.hosted (h : Run a (a :: ms) b) (hjobs : a.jobs = t :: js)
    (hrun : t.run a.world = .ok out) (ht : t.visits = false)
    (hb : b.jobs.length ≤ (out.jobs ++ js).length) :
    ∃ hooks c after, ms = hooks ++ after ∧ Run a (a :: hooks) c ∧ Run c after b ∧
      c.jobs = out.jobs ++ js ∧ ∀ x ∈ hooks, x.Hosts (out.jobs ++ js) := by
  cases h with
  | @cons _ b' _ _ hturn hrest =>
    rcases hturn.of_run hjobs hrun ht with hnext | ⟨above, hook, hnext⟩
    · exact ⟨[], b', ms, rfl, .cons hturn (.nil b'), hrest, hnext, by simp⟩
    · -- `c` is where the hook has run its last step
      obtain ⟨during, c, after, rfl, hduring, hafter, hc, htops⟩ :=
        hrest.returns (.leave hook :: (out.jobs ++ js)) (by simp at hb ⊢; omega) above hnext
      cases hafter with
      | nil =>
        simp only [hc, List.length_cons] at hb
        omega
      | @cons _ d _ after hleave hafter =>
        obtain rfl := hleave.eq_of_run hc rfl rfl rfl
        refine ⟨during ++ [c], _, after, by simp, ?_, hafter, rfl, ?_⟩
        · exact .cons hturn (hduring.append (.cons hleave (.nil _)))
        · refine List.forall_mem_append.2 ⟨fun x hx => ?_, fun x hx => ?_⟩
          · obtain ⟨u, above', hx⟩ := htops x hx
            exact ⟨u :: above', hook, hx⟩
          · rw [List.mem_singleton.1 hx]
            exact ⟨[], hook, hc⟩

/-! ## The end of an operation -/

/-- **An operation that has nothing left to do but to close and to answer** releases its
handles once each and in order. A turn that is not one of a hook does one of these jobs. -/
theorem Run.closing (h : Run a ms b) {closing : List Job} {answer : Answer}
    (hclosing : ∀ u ∈ closing, u.Closing) (hjobs : a.jobs = closing ++ .answer answer :: rest)
    (hb : b.jobs = rest) (hms : ∀ x ∈ ms, rest.length < x.jobs.length) :
    Machine.releases rest ms = closing.filterMap Job.released? ∧
      ∀ x ∈ ms, x.hosts rest = true ∨
        ∃ t js, x.jobs = t :: js ∧ (t.Closing ∨ t = .answer answer) := by
  induction closing generalizing a ms with
  | nil =>
    cases h with
    | nil => simp [hb] at hjobs
    | cons hturn hrun =>
      obtain rfl := hturn.eq_of_run hjobs rfl rfl rfl
      cases hrun with
      | nil =>
        refine ⟨by simp [Machine.releases, released?, hjobs, Job.released?], fun x hx => ?_⟩
        rw [List.mem_singleton.1 hx]
        exact Or.inr ⟨_, _, hjobs, Or.inr rfl⟩
      | cons hturn' _ =>
        -- the run stops where the jobs `rest` are reached
        have hlonger := hms _ (List.mem_cons_of_mem _ List.mem_cons_self)
        simp at hlonger
  | cons u closing ih =>
    obtain ⟨hu, hclosing⟩ := List.forall_mem_cons.1 hclosing
    obtain ⟨⟨out, hrun, hnone⟩, hvisits, -⟩ := hu.run a.world
    have hlength : b.jobs.length ≤ (out.jobs ++ (closing ++ .answer answer :: rest)).length := by
      simp only [hb, List.length_append, List.length_cons]
      omega
    cases h with
    | nil =>
      simp only [hjobs, List.cons_append, List.length_append, List.length_cons] at hlength
      rw [hnone, List.length_nil] at hlength
      omega
    | @cons _ b' _ ms hturn hrest =>
      obtain ⟨hooks, c, after, rfl, -, hafter, hc, hhooks⟩ :=
        (Run.cons hturn hrest).hosted hjobs hrun hvisits hlength
      rw [hnone, List.nil_append] at hc hhooks
      obtain ⟨-, hlonger⟩ := List.forall_mem_cons.1 hms
      obtain ⟨hothers, hown'⟩ := ih hafter hclosing hc fun x hx =>
        hlonger x (List.mem_append_right _ hx)
      have hown : a.hosts rest = false := by
        rw [hosts_of_jobs (u :: closing ++ [.answer answer]) (by simp [hjobs])]
        refine List.any_eq_false.2 fun v hv => ?_
        rcases List.mem_append.1 hv with hv | hv
        · simp [(List.forall_mem_cons.2 ⟨hu, hclosing⟩ v hv).ends]
        · simp [List.mem_singleton.1 hv, Job.ends]
      have hfirst : Machine.releases rest [a] = u.released?.toList := by
        rw [Machine.releases, List.filterMap_cons, released?_of_jobs hjobs hown]
        cases u.released? <;> rfl
      have hhosts : ∀ x ∈ hooks, x.hosts rest = true := by
        intro x hx
        have hwaits : x.Hosts ((closing ++ [.answer answer]) ++ rest) := by
          rw [List.append_assoc]
          exact hhooks x hx
        exact hwaits.hosts
      constructor
      · show Machine.releases rest ([a] ++ (hooks ++ after)) = _
        rw [releases_append, releases_append, releases_of_hosts hhosts, hothers, hfirst,
          List.nil_append, List.filterMap_cons]
        cases u.released? <;> rfl
      · rw [List.forall_mem_cons, List.forall_mem_append]
        exact ⟨Or.inr ⟨u, _, hjobs, Or.inl hu⟩, fun x hx => Or.inl (hhosts x hx), hown'⟩

/-- While an operation closes, only hooks act on registries. -/
theorem Run.releases (h : Run a ms b) {closing : List Job} {answer : Answer}
    (hclosing : ∀ u ∈ closing, u.Closing) (hjobs : a.jobs = closing ++ .answer answer :: rest)
    (hb : b.jobs = rest) (hms : ∀ x ∈ ms, rest.length < x.jobs.length) :
    Machine.releases rest ms = closing.filterMap Job.released? ∧
      ∀ x ∈ ms, x.act? ≠ none → x.hosts rest = true := by
  obtain ⟨hreleases, hown⟩ := h.closing hclosing hjobs hb hms
  refine ⟨hreleases, fun x hx hact => (hown x hx).resolve_right ?_⟩
  rintro ⟨t, js, hjobs, ht⟩
  refine hact (act?_of_no_action hjobs ?_)
  rcases ht with ht | rfl
  · exact (ht.run x.world).2.2
  · rfl

end Machine

end ListenerRegistry
