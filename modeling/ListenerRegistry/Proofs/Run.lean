import ListenerRegistry.Report

/-!
# Runs with arbitrary foreign code

The machine runs under a program, which fixes what every hook does. Here foreign
code may do anything: whenever the library calls the host, the hook that runs is
any list of steps, chosen anew for every call and without regard to the hooks
that are running already, and a predicate of a retaining step performs any steps
and answers what it likes. Runs under a program, and whole sessions, are runs in
this sense (`exists_run_of_reaches`, `exists_run_of_reports`).
-/

namespace ListenerRegistry

/-- The same job, except that a retaining step which has slots to visit may have
changed its mind about how it decides. -/
def Job.Variant (t t' : Job) : Prop :=
  t' = t ∨ ∃ s rule, s.pending ≠ [] ∧ t = .screen s ∧ t' = .screen { s with keep := rule }

/-- What foreign code leaves on the stack: its steps, the records of their
answers, and its end mark. -/
def Job.Foreign : Job → Prop
  | perform _ | record | leave _ => True
  | _ => False

namespace Machine

/-- One turn with arbitrary foreign code. -/
inductive Turn : Machine → Machine → Prop where
  /-- The job on top is carried out. If it calls the host, no hook is run. -/
  | carry {w : World} {t : Job} {rest : List Job} {out : Outcome} (h : t.run w = .ok out) :
      Turn ⟨w, t :: rest, none⟩ ⟨out.world, out.jobs ++ rest, none⟩
  /-- The job on top calls the host, and a hook performs some steps. -/
  | call {w : World} {t : Job} {rest : List Job} {out : Outcome} {hook : Hook}
      (script : List Step) (h : t.run w = .ok out) (hcall : out.call = some hook) :
      Turn ⟨w, t :: rest, none⟩
        ⟨out.world.emit (.enter hook), body hook script ++ (out.jobs ++ rest), none⟩
  /-- A retaining step asks about an entry. The predicate performs some steps
  and decides. -/
  | consult {w : World} {s : Screening} {rest : List Job} {out : Outcome} {i : Nat}
      {pending : List Nat} (script : List Step) (keep : Bool) (hslot : s.pending = i :: pending)
      (hentry : ((w.registry s.registry).entryAt? i).isSome = true)
      (h : Job.run w (.screen { s with keep := .rule (.always keep) }) = .ok out) :
      Turn ⟨w, .screen s :: rest, none⟩
        ⟨out.world, script.map .perform ++ (out.jobs ++ rest), none⟩
  /-- The job on top breaks a promise. -/
  | fail {w : World} {t : Job} {rest : List Job} {f : Fault} (h : t.run w = .error f) :
      Turn ⟨w, t :: rest, none⟩ ⟨w, t :: rest, some f⟩

/-- `Run a ms b`: turns lead from `a` to `b`, and they start at the machines
`ms`, in this order. -/
inductive Run : Machine → List Machine → Machine → Prop where
  | nil (m : Machine) : Run m [] m
  | cons {a b c : Machine} {ms : List Machine} : Turn a b → Run b ms c → Run a (a :: ms) c

/-- The machine that is about to perform some steps in a world of some objects,
in which nothing else is there yet. -/
def session (objects : List ForeignObject) (steps : List Step) : Machine :=
  ⟨.init objects, steps.map .perform, none⟩

/-! ## One turn -/

/-- **What a turn does.** Either the job on top breaks a promise, or it is
carried out and foreign code may come on top of what it leaves to do. -/
theorem Turn.inv {a b : Machine} (h : Turn a b) :
    ∃ w t rest, a = ⟨w, t :: rest, none⟩ ∧
      ((∃ f, t.run w = .error f ∧ b = ⟨w, t :: rest, some f⟩) ∨
        ∃ t' out w' above, t.Variant t' ∧ t'.run w = .ok out ∧
          (w' = out.world ∨ ∃ hook, out.call = some hook ∧ w' = out.world.emit (.enter hook)) ∧
          (∀ u ∈ above, Job.Foreign u) ∧ b = ⟨w', above ++ (out.jobs ++ rest), none⟩) := by
  cases h with
  | carry h =>
    exact ⟨_, _, _, rfl, Or.inr ⟨_, _, _, [], Or.inl rfl, h, Or.inl rfl, by simp, rfl⟩⟩
  | @call _ _ _ _ hook script h hcall =>
    refine ⟨_, _, _, rfl, Or.inr ⟨_, _, _, body hook script, Or.inl rfl, h,
      Or.inr ⟨hook, hcall, rfl⟩, ?_, rfl⟩⟩
    intro u hu
    simp only [body, List.mem_append, List.mem_flatMap, List.mem_cons, List.not_mem_nil,
      or_false] at hu
    rcases hu with ⟨s, -, rfl | rfl⟩ | rfl <;> trivial
  | @consult _ _ _ _ _ _ script keep hslot _ h =>
    refine ⟨_, _, _, rfl, Or.inr ⟨_, _, _, script.map .perform,
      Or.inr ⟨_, _, by simp [hslot], rfl, rfl⟩, h, Or.inl rfl, ?_, rfl⟩⟩
    intro u hu
    obtain ⟨s, -, rfl⟩ := List.mem_map.1 hu
    trivial
  | fail h => exact ⟨_, _, _, rfl, Or.inl ⟨_, h, rfl⟩⟩

/-- What can come next where the job `t` does not fail in the world `w`, but has the outcome
`out`. -/
inductive Follows (w : World) (t : Job) (rest : List Job) (out : Outcome) : Machine → Prop where
  | next : Follows w t rest out ⟨out.world, out.jobs ++ rest, none⟩
  | hook (hook : Hook) (script : List Step) (hcall : out.call = some hook) :
      Follows w t rest out
        ⟨out.world.emit (.enter hook), body hook script ++ (out.jobs ++ rest), none⟩
  | predicate {s : Screening} {out' : Outcome} {i : Nat} {pending : List Nat} (script : List Step)
      (keep : Bool) (ht : t = .screen s) (hslot : s.pending = i :: pending)
      (hentry : ((w.registry s.registry).entryAt? i).isSome = true)
      (hrun : Job.run w (.screen { s with keep := .rule (.always keep) }) = .ok out') :
      Follows w t rest out ⟨out'.world, script.map .perform ++ (out'.jobs ++ rest), none⟩

theorem Turn.follows {a b : Machine} (h : Turn a b) {t : Job} {rest : List Job} {out : Outcome}
    (hjobs : a.jobs = t :: rest) (hrun : t.run a.world = .ok out) :
    Follows a.world t rest out b := by
  cases h with
  | carry hrun' =>
    cases hjobs
    obtain rfl := Except.ok.inj (hrun'.symm.trans hrun)
    exact .next
  | call script hrun' hcall =>
    cases hjobs
    obtain rfl := Except.ok.inj (hrun'.symm.trans hrun)
    exact .hook _ script hcall
  | consult script keep hslot hentry hrun' =>
    cases hjobs
    exact .predicate script keep rfl hslot hentry hrun'
  | fail herr =>
    cases hjobs
    cases herr.symm.trans hrun

/-- A machine that has stopped takes no turn. -/
theorem Turn.running {a b : Machine} (h : Turn a b) : a.fault = none := by
  obtain ⟨w, t, rest, rfl, -⟩ := h.inv
  rfl

/-- What lies below the jobs of a turn has no part in it. -/
theorem Turn.frame {w w' : World} {js js' : List Job} {f : Option Fault}
    (h : Turn ⟨w, js, none⟩ ⟨w', js', f⟩) (rest : List Job) :
    Turn ⟨w, js ++ rest, none⟩ ⟨w', js' ++ rest, f⟩ := by
  cases h with
  | carry h =>
    rw [List.append_assoc]
    exact .carry h
  | call script h hcall =>
    rw [List.append_assoc, List.append_assoc]
    exact .call script h hcall
  | consult script keep hslot hentry h =>
    rw [List.append_assoc, List.append_assoc]
    exact .consult script keep hslot hentry h
  | fail h => exact .fail h

/-- A turn under a program is a turn. -/
theorem turn_of_turn {p : Program} {a b : Machine} (h : a.turn p = some b) : Turn a b := by
  obtain ⟨w, jobs, fault⟩ := a
  cases fault with
  | some f => simp [turn] at h
  | none =>
    cases jobs with
    | nil => simp [turn] at h
    | cons t rest =>
      simp only [turn] at h
      cases hrun : t.run w with
      | error f =>
        simp only [hrun, Option.some.injEq] at h
        exact h ▸ .fail hrun
      | ok out =>
        simp only [hrun, Option.some.injEq, proceed] at h
        cases hcall : out.call with
        | none =>
          simp only [hcall] at h
          exact h ▸ .carry hrun
        | some hook =>
          simp only [hcall, enter] at h
          split at h
          · exact h ▸ .carry hrun
          · split at h
            · exact h ▸ .carry hrun
            · exact h ▸ .call _ hrun hcall

/-! ## Runs -/

theorem Run.append {a b c : Machine} {ms ns : List Machine} (hab : Run a ms b)
    (hbc : Run b ns c) : Run a (ms ++ ns) c := by
  induction hab with
  | nil => exact hbc
  | cons h _ ih => exact .cons h (ih hbc)

/-- A run passes through the machines at which its turns start. -/
theorem Run.split {a b c : Machine} {before after : List Machine}
    (h : Run a (before ++ c :: after) b) : Run a before c ∧ Run c (c :: after) b := by
  induction before generalizing a with
  | nil =>
    cases h with
    | cons h hrest => exact ⟨.nil _, .cons h hrest⟩
  | cons a' before ih =>
    cases h with
    | cons h hrest =>
      obtain ⟨hbefore, hafter⟩ := ih hrest
      exact ⟨.cons h hbefore, hafter⟩

/-- A run that has jobs to do begins with a turn. -/
theorem Run.inv_of_lt {a b : Machine} {ms : List Machine} (h : Run a ms b)
    (hlt : b.jobs.length < a.jobs.length) :
    ∃ c tail, ms = a :: tail ∧ Turn a c ∧ Run c tail b := by
  cases h with
  | nil => exact absurd hlt (Nat.lt_irrefl _)
  | cons hturn hrest => exact ⟨_, _, rfl, hturn, hrest⟩

/-- A run starts where it starts. -/
theorem Run.head? {a b : Machine} {ms : List Machine} (h : Run a ms b) :
    (ms ++ [b]).head? = some a := by
  cases h <;> rfl

/-- A turn after which a run gets further down breaks no promise. -/
theorem Run.fault_of_lt {a b c : Machine} {ms : List Machine} (h : Run b ms c) (hturn : Turn a b)
    (hlt : c.jobs.length < a.jobs.length) : b.fault = none := by
  cases h with
  | nil =>
    obtain ⟨w, t, rest, rfl, ⟨f, -, rfl⟩ | ⟨_, _, _, _, -, -, -, -, rfl⟩⟩ := hturn.inv
    · -- the job that failed is still to be done
      exact absurd hlt (Nat.lt_irrefl _)
    · rfl
  | cons hnext _ => exact hnext.running

/-- A turn leads to where the next one starts. -/
theorem Run.uncons {a a' b c : Machine} {ms : List Machine} (h : Run a (a' :: b :: ms) c) :
    Turn a b ∧ Run b (b :: ms) c := by
  cases h with
  | cons hturn hrest =>
    cases hrest with
    | cons hturn' hrest => exact ⟨hturn, .cons hturn' hrest⟩

/-- What holds at the start and survives the turns of machines of a kind holds all
the way, as long as there are no other machines. -/
theorem Run.preserves_of {P Q : Machine → Prop} (step : ∀ a b, P a → Q a → Turn a b → P b)
    {a b : Machine} {ms : List Machine} (h : Run a ms b) (hms : ∀ m ∈ ms, Q m) (ha : P a) :
    P b ∧ ∀ m ∈ ms, P m := by
  induction h with
  | nil => exact ⟨ha, by simp⟩
  | cons h _ ih =>
    rw [List.forall_mem_cons] at hms ⊢
    obtain ⟨hc, hrest⟩ := ih hms.2 (step _ _ ha hms.1 h)
    exact ⟨hc, ha, hrest⟩

/-- What holds at the start and survives every turn holds all the way. -/
theorem Run.preserves {P : Machine → Prop} (step : ∀ a b, P a → Turn a b → P b)
    {a b : Machine} {ms : List Machine} (h : Run a ms b) (ha : P a) :
    P b ∧ ∀ m ∈ ms, P m :=
  h.preserves_of (Q := fun _ => True) (fun a b ha _ hab => step a b ha hab)
    (fun _ _ => trivial) ha

/-- What relates the ends of every turn relates every machine on the way to the
last one. -/
theorem Run.relates {P : Machine → Prop} {R : Machine → Machine → Prop} (refl : ∀ a, R a a)
    (trans : ∀ a b c, R a b → R b c → R a c) (step : ∀ a b, P a → Turn a b → P b ∧ R a b)
    {a b : Machine} {ms : List Machine} (h : Run a ms b) (ha : P a) :
    R a b ∧ ∀ m ∈ ms, R m b := by
  induction h with
  | nil => exact ⟨refl _, by simp⟩
  | cons h _ ih =>
    obtain ⟨hb, hab⟩ := step _ _ ha h
    obtain ⟨hbc, hms⟩ := ih hb
    have hac := trans _ _ _ hab hbc
    exact ⟨hac, List.forall_mem_cons.2 ⟨hac, hms⟩⟩

theorem Run.frame {a b : Machine} {ms : List Machine} (h : Run a ms b) (rest : List Job) :
    a.fault = none → b.fault = none →
      ∃ ns, Run ⟨a.world, a.jobs ++ rest, none⟩ ns ⟨b.world, b.jobs ++ rest, none⟩ := by
  induction h with
  | nil => exact fun _ _ => ⟨[], .nil _⟩
  | @cons a b c ms h hrun ih =>
    intro ha hc
    have hb : b.fault = none := by
      cases hrun with
      | nil => exact hc
      | cons h' _ => exact h'.running
    obtain ⟨ns, hns⟩ := ih hb hc
    obtain ⟨w, js, f⟩ := a
    obtain rfl : f = none := ha
    obtain ⟨w', js', f'⟩ := b
    obtain rfl : f' = none := hb
    exact ⟨_, .cons (h.frame rest) hns⟩

/-- A run that uses up the jobs on top of `js` passes through a machine that has
the jobs `js`, and has others on top until then. -/
theorem Run.returns {a b : Machine} {ms : List Machine} (h : Run a ms b) (js : List Job)
    (hb : b.jobs.length ≤ js.length) :
    ∀ top, a.jobs = top ++ js → ∃ during c after, ms = during ++ after ∧ Run a during c ∧
      Run c after b ∧ c.jobs = js ∧ ∀ d ∈ during, ∃ t above, d.jobs = t :: above ++ js := by
  induction h with
  | nil m =>
    intro top htop
    obtain rfl : top = [] := by
      rw [htop, List.length_append] at hb
      exact List.length_eq_zero_iff.1 (by omega)
    exact ⟨[], m, [], rfl, .nil m, .nil m, htop, by simp⟩
  | @cons a b' _ ms hturn hrun ih =>
    intro top htop
    cases top with
    | nil => exact ⟨[], a, a :: ms, rfl, .nil a, .cons hturn hrun, htop, by simp⟩
    | cons t top =>
      -- the turn has to do with `t` alone, so that `js` is still at the bottom
      have hnext : ∃ top', b'.jobs = top' ++ js := by
        obtain ⟨w, t', rest, rfl, ⟨f, -, rfl⟩ | ⟨_, out, w', above, -, -, -, -, rfl⟩⟩ := hturn.inv
        · exact ⟨_, htop⟩
        · obtain ⟨-, rfl⟩ := List.cons.inj htop
          exact ⟨above ++ (out.jobs ++ top), by simp⟩
      obtain ⟨top', htop'⟩ := hnext
      obtain ⟨during, c, after, rfl, hduring, hafter, hc, htops⟩ := ih hb top' htop'
      exact ⟨a :: during, c, after, rfl, .cons hturn hduring, hafter, hc,
        List.forall_mem_cons.2 ⟨⟨t, top, htop⟩, htops⟩⟩

/-- The program without hooks. -/
def still : Program := ⟨[]⟩

/-- The machines from which the first `n` turns under a program start. -/
def visited (p : Program) : Nat → Machine → List Machine
  | 0, _ => []
  | n + 1, m =>
      match m.turn p with
      | some next => m :: visited p n next
      | none => []

theorem run_visited (p : Program) : ∀ (n : Nat) (m : Machine), Run m (visited p n m) (m.turns p n)
  | 0, m => .nil m
  | n + 1, m => by
    unfold visited turns
    cases h : m.turn p with
    | none => exact .nil m
    | some next => exact .cons (turn_of_turn h) (run_visited p n next)

theorem visited_append (p : Program) : ∀ (n k : Nat) (m : Machine),
    visited p (n + k) m = visited p n m ++ visited p k (m.turns p n)
  | 0, k, m => by rw [Nat.zero_add]; rfl
  | n + 1, k, m => by
    rw [Nat.add_right_comm]
    unfold turns
    rw [visited, visited]
    cases h : m.turn p with
    | none =>
      -- nothing is visited any more
      cases k with
      | zero => rfl
      | succ k => simp [visited, h]
    | some next =>
      show m :: visited p (n + k) next = m :: visited p n next ++ visited p k (turns p n next)
      rw [visited_append p n k next, List.cons_append]

theorem visited_succ {p : Program} {m : Machine} (h : (m.turn p).isSome = true) (n : Nat) :
    visited p (n + 1) m = m :: visited p n (m.turns p 1) := by
  obtain ⟨next, hnext⟩ := Option.isSome_iff_exists.1 h
  simp only [visited, turns, hnext]

/-- Turns under a program make a run. -/
theorem exists_run_of_reaches {p : Program} {a b : Machine} (h : Reaches p a b) :
    ∃ ms, Run a ms b := by
  induction h with
  | refl => exact ⟨[], .nil _⟩
  | turn _ h ih =>
    obtain ⟨ms, hms⟩ := ih
    exact ⟨_, hms.append (.cons (turn_of_turn h) (.nil _))⟩

/-- **A session is a run.** The steps are performed one after the other, under
whatever program the session uses. -/
theorem exists_run_of_reports {p : Program} {detail : Detail} {extent : Extent} {steps : List Step}
    {w w' : World} {rs : List StepReport}
    (h : Session.reports p detail extent w steps = .ok (rs, w')) :
    ∃ ms, Run ⟨w, steps.map .perform, none⟩ ms ⟨w', [], none⟩ := by
  induction steps generalizing w rs with
  | nil =>
    cases h
    exact ⟨[], .nil _⟩
  | cons s steps ih =>
    simp only [Session.reports, Session.report, bind, Except.bind] at h
    cases hfault : (Session.perform p w s).fault with
    | some f => simp [hfault] at h
    | none =>
      simp only [hfault] at h
      split at h
      · cases h
      · rename_i rest hrest
        cases h
        obtain ⟨ms, hms⟩ := exists_run_of_reaches (reaches_run p (start w s))
        have hdone : (Session.perform p w s).jobs = [] :=
          (stopped_run p (start w s)).resolve_right fun hf => hf hfault
        obtain ⟨ns, hns⟩ := hms.frame (steps.map .perform) rfl hfault
        obtain ⟨ks, hks⟩ := ih hrest
        rw [show ((start w s).run p).jobs = [] from hdone] at hns
        exact ⟨_, hns.append hks⟩

end Machine

end ListenerRegistry
