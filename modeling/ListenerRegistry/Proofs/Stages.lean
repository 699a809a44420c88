import ListenerRegistry.Proofs.Rulings

/-!
# The stages of an operation

An operation on a registry is carried out in stages: it begins, it may ask for a
hash, it waits for the hash function, and a retaining step visits one slot after
the other. Every stage leads to the next one, perhaps with foreign code in
between, until the operation takes its action or comes to an answer without one
(`Turn.advances`). From then on there is nothing left to do but to release handles
and to answer.
-/

namespace ListenerRegistry

/-! ## What an operation is about -/

/-- The handle that is to be had from the source. -/
def Source.target (w : World) : Source → Handle
  | fresh target => target
  | copied h | taken h => w.handle h

/-- The handle that the probe is on. -/
def Probe.target (w : World) : Probe → Handle
  | fresh target => target
  | register h => w.handle h

namespace RegistryOp

/-- The object that an operation hashes, if it begins in the world `w`. -/
def subject (w : World) : RegistryOp → Handle
  | insert _ source _ => source.target w
  | find _ probe _ | contains _ probe | remove _ probe _ => probe.target w
  | _ => none

/-- An operation that began in the world `v` gets its hash, or no hash, in `w`. -/
def Hashes (op : RegistryOp) (v w : World) (outcome : HashOutcome) : Prop :=
  ∃ o, op.subject v = some o ∧ w.hashOutcome o = outcome

/-- The atomic operation is the one that stands for an operation which began in
the world `v` and comes to its action in `w`. A retaining step has `asked` about
some entries and has `ruled` on each of them, and takes out those that it rejected. -/
def Performs (op : RegistryOp) (v w : World) (asked : List ListenerId)
    (ruled : List (ListenerId × Bool)) (x : Act) : Prop :=
  match op with
  | insert s source _ =>
      x.registry = s ∧ ∃ hash, op.Hashes v w (.ok hash) ∧ x.action = .insert ⟨source.target v, hash⟩
  | insertKey s k _ => x.registry = s ∧ ∃ key, v.key? k = some key ∧ x.action = .insert key
  | find s probe _ | contains s probe =>
      x.registry = s ∧ ∃ hash, op.Hashes v w (.ok hash) ∧ x.action = .find ⟨probe.target w, hash⟩
  | remove s probe _ =>
      x.registry = s ∧
        ∃ hash, op.Hashes v w (.ok hash) ∧ x.action = .withdraw ⟨probe.target w, hash⟩
  | get s n => x.registry = s ∧ ∃ id, v.savedId? n = some id ∧ x.action = .get id
  | removeId s n _ => x.registry = s ∧ ∃ id, v.savedId? n = some id ∧ x.action = .removeId id
  | retain s _ =>
      x.registry = s ∧ ruled.map (·.1) = asked ∧ x.action = .strike (Machine.rejected ruled)
  | clear s => x.registry = s ∧ x.action = .clear
  | discard s => x.registry = s ∧ x.action = .discard
  | size s => x.registry = s ∧ x.action = .size
  | entries s => x.registry = s ∧ x.action = .entries
  | sameId .. => False

/-- The answer of an operation that has no action to take. There is no object, no
key or no id to begin with, or there is no hash. -/
def Declines (op : RegistryOp) (v w : World) (answer : Answer) : Prop :=
  match op, answer with
  | insert _ source _, .dead => v.obtain? source = none
  | find _ probe _, .dead | contains _ probe, .dead | remove _ probe _, .dead =>
      v.grip? probe = none
  | insert .., .failed e => e = .nullListener ∧ op.subject v = none ∨ op.Hashes v w (.error e)
  | find .., .failed e | contains .., .failed e | remove .., .failed e => op.Hashes v w (.error e)
  | find .., .located none | contains .., .verdict false | remove .., .withdrawn none =>
      op.subject v = none
  | insertKey _ k _, .noKey => v.key? k = none
  | insertKey _ k _, .failed e => e = .nullListener ∧ (v.key? k).bind Key.handle = none
  | get _ n, .noId | removeId _ n _, .noId => v.savedId? n = none
  | sameId i j, .noId => v.savedId? i = none ∨ v.savedId? j = none
  | sameId i j, .flag same =>
      ∃ x y, v.savedId? i = some x ∧ v.savedId? j = some y ∧ same = (x == y)
  | _, _ => False

/-- A retaining step always comes to its action. -/
theorem not_declines_retain {s : Nat} {keep : Keep} {v w : World} {answer : Answer} :
    ¬(retain s keep).Declines v w answer := by
  cases answer <;> exact id

/-! ## The stages of an operation -/

/-- The operation asked for a hash, and this is what for. A retaining step has yet to
decide about the entry that it asked about last. -/
def Asks (op : RegistryOp) (v : World) (asked : List ListenerId)
    (ruled : List (ListenerId × Bool)) : HashUse → Prop
  | .insert s h save => ∃ source, op = insert s source save ∧ h = source.target v
  | .find s grip save => ∃ probe, op = find s probe save ∧ ∀ w, grip.handle w = probe.target w
  | .contains s grip => ∃ probe, op = contains s probe ∧ ∀ w, grip.handle w = probe.target w
  | .remove s grip dest => ∃ probe, op = remove s probe dest ∧ ∀ w, grip.handle w = probe.target w
  | .screen _ id sc =>
      (∃ keep, op = retain sc.registry keep) ∧ ruled.map (·.1) ++ [id] = asked ∧
        sc.doomed.reverse = Machine.rejected ruled
  | _ => False

/-- In the world `w` the job takes an operation that began in `v` to its action. The
operation begins with nothing asked and nothing decided. -/
def Stage (op : RegistryOp) (v w : World) (asked : List ListenerId)
    (ruled : List (ListenerId × Bool)) : Job → Prop
  | .perform (.op (.registry op')) => op' = op ∧ w = v ∧ asked = [] ∧ ruled = []
  | .ask use => op.Asks v asked ruled use ∧
      (use.screening? = none → ∃ o, op.subject v = some o ∧ use.probe.handle w = some o)
  | .hashed o use => op.Asks v asked ruled use ∧ (use.screening? = none → op.subject v = some o)
  | .screen sc => (∃ keep, op = retain sc.registry keep) ∧ ruled.map (·.1) = asked ∧
      sc.doomed.reverse = Machine.rejected ruled
  | _ => False

end RegistryOp

/-- The job visits the next slot of a retaining step. -/
def Job.visits : Job → Bool
  | screen _ => true
  | _ => false

/-- The job belongs to the end of an operation: it releases a handle or logs. -/
def Job.Closing : Job → Prop
  | release _ | log _ => True
  | _ => False

theorem Job.closing_releases {α : Type} (f : α → Handle) (l : List α) :
    ∀ u ∈ l.map fun x => release (f x), u.Closing := by
  intro u hu
  obtain ⟨x, -, rfl⟩ := List.mem_map.1 hu
  trivial

/-- A retaining step that asked for a hash takes no action with it. -/
theorem HashUse.screening?_of_action {use : HashUse} {w : World} {outcome : HashOutcome}
    {x : Nat × Action} (h : use.action? w outcome = some x) : use.screening? = none := by
  cases use with
  | screen => cases outcome <;> cases h
  | _ => rfl

/-- An operation that gets a hash takes its action with it. -/
theorem HashUse.refused_of_no_action {op : RegistryOp} {use : HashUse} {v w : World}
    {asked : List ListenerId} {ruled : List (ListenerId × Bool)} {outcome : HashOutcome}
    (h : op.Asks v asked ruled use) (hscreen : use.screening? = none)
    (ha : use.action? w outcome = none) : ∃ e, outcome = .error e := by
  cases outcome with
  | error e => exact ⟨e, rfl⟩
  | ok hash =>
    cases use with
    | insert | find | contains | remove => cases ha
    | screen => cases hscreen
    | _ => exact h.elim

/-- The action that an operation takes once it has a hash is its own. -/
theorem HashUse.performs_of_action {op : RegistryOp} {use : HashUse} {v w : World}
    {asked : List ListenerId} {ruled : List (ListenerId × Bool)} {hash : UInt64} {s : Nat}
    {action : Action} (h : op.Asks v asked ruled use) (hhash : op.Hashes v w (.ok hash))
    (ha : use.action? w (.ok hash) = some (s, action)) (reply : Reply) :
    op.Performs v w asked ruled ⟨s, action, reply⟩ ∧ use.conclude reply = op.conclude reply := by
  cases use with
  | insert s h save =>
    obtain ⟨source, rfl, rfl⟩ := h
    cases ha
    exact ⟨⟨rfl, hash, hhash, rfl⟩, rfl⟩
  | find s grip save | contains s grip | remove s grip dest =>
    obtain ⟨probe, rfl, hgrip⟩ := h
    cases ha
    exact ⟨⟨rfl, hash, hhash, by rw [hgrip]⟩, rfl⟩
  | _ => cases ha

theorem RegistryOp.performs_of_action {op : RegistryOp} {w : World} {s : Nat} {action : Action}
    (ha : op.action? w = some (s, action)) (asked : List ListenerId)
    (ruled : List (ListenerId × Bool)) (reply : Reply) :
    op.Performs w w asked ruled ⟨s, action, reply⟩ := by
  cases op with
  | insertKey s' k save =>
    obtain ⟨key, hkey, ha⟩ := Option.bind_eq_some_iff.1 ha
    split at ha <;> cases ha
    exact ⟨rfl, key, hkey, rfl⟩
  | get s' n | removeId s' n dest =>
    obtain ⟨id, hid, ha⟩ := Option.map_eq_some_iff.1 ha
    cases ha
    exact ⟨rfl, id, hid, rfl⟩
  | clear | discard | size | entries =>
    cases ha
    exact ⟨rfl, rfl⟩
  | insert | find | contains | remove | sameId | retain => cases ha

/-- The action at the end of the way is the operation's own, and the operation's
answer is concluded from the reply. -/
theorem RegistryOp.performs_of_stage {op : RegistryOp} {t : Job} {v w : World}
    {asked : List ListenerId} {ruled : List (ListenerId × Bool)} {s : Nat} {action : Action}
    (h : op.Stage v w asked ruled t) (ha : t.action? w = some (s, action)) (reply : Reply) :
    op.Performs v w asked ruled ⟨s, action, reply⟩ ∧ t.conclude reply = op.conclude reply := by
  cases t with
  | perform step =>
    cases step with
    | op op' =>
      cases op' with
      | registry op' =>
        obtain ⟨rfl, rfl, -, -⟩ := h
        exact ⟨performs_of_action ha asked ruled reply, rfl⟩
      | _ => cases ha
    | batch => cases ha
  | ask use =>
    simp only [Job.action?] at ha
    split at ha
    · -- nobody asks for the hash of null, except a retaining step
      rename_i hnull
      obtain ⟨o, -, ho⟩ := h.2 (use.screening?_of_action ha)
      rw [hnull] at ho
      cases ho
    · cases ha
  | hashed o use =>
    obtain ⟨hasks, hsubject⟩ := h
    cases hout : w.hashOutcome o with
    | error e =>
      rw [Job.action?, hout] at ha
      cases ha
    | ok hash =>
      rw [Job.action?, hout] at ha
      exact use.performs_of_action hasks ⟨o, hsubject (use.screening?_of_action ha), hout⟩ ha reply
  | screen sc =>
    obtain ⟨⟨keep, rfl⟩, hruled, hdoomed⟩ := h
    simp only [Job.action?] at ha
    split at ha <;> cases ha
    exact ⟨⟨rfl, hruled, congrArg _ hdoomed⟩, rfl⟩
  | _ => cases ha

/-! ## One turn -/

/-- A retaining step that has decided about the entry it asked about goes on. -/
theorem RegistryOp.stage_judge {op : RegistryOp} {v : World} {asked : List ListenerId}
    {ruled : List (ListenerId × Bool)} {bound : UInt64} {id : ListenerId} {sc : Screening}
    (h : op.Asks v asked ruled (.screen bound id sc)) (keep : Bool) (w : World) :
    op.Stage v w asked (ruled ++ [(id, keep)]) (.screen (sc.judge id keep)) := by
  obtain ⟨hop, hruled, hdoomed⟩ := h
  refine ⟨?_, ?_, ?_⟩
  · rwa [Screening.judge_registry]
  · rw [← hruled, List.map_append]
    rfl
  · rw [Machine.rejected_judge, hdoomed, Machine.rejected_append]

/-- A retaining step that visits a slot goes on. If it asks about an entry there, it
decides about it at once or asks for a hash. -/
theorem RegistryOp.stage_screen {op : RegistryOp} {v w : World} {asked : List ListenerId}
    {ruled : List (ListenerId × Bool)} {sc : Screening} {out : Outcome}
    (h : screen w sc = .ok out) (hpending : sc.pending ≠ [])
    (hstage : op.Stage v w asked ruled (.screen sc)) :
    ∃ u, out.jobs = [u] ∧ ∀ w', op.Stage v w' (asked ++ (sc.question? w).toList)
      (ruled ++ ((Job.screen sc).rules? w u).toList) u := by
  obtain ⟨hop, hruled, hdoomed⟩ := hstage
  obtain ⟨i, pending, hcons⟩ := List.exists_cons_of_ne_nil hpending
  have hquestion := Screening.question?_of_pending w hcons
  have hvisits := visits_of_screen hcons h
  generalize out.jobs = js at hvisits ⊢
  cases hvisits with
  | passes hentry =>
    refine ⟨_, rfl, fun _ => ?_⟩
    rw [hquestion, hentry, Job.rules?_of_vacant hcons hentry]
    simpa using ⟨hop, hruled, hdoomed⟩
  | @asks id k bound hentry hkeep =>
    refine ⟨_, rfl, fun _ => ⟨⟨hop, ?_, ?_⟩, nofun⟩⟩
    · simp [hquestion, hentry, Job.rules?, hruled]
    · simpa [Job.rules?] using hdoomed
  | @decides id k rule hentry hkeep =>
    have hasks : op.Asks v (asked ++ [id]) ruled
        (.screen 0 id { sc with pending, asked := sc.asked + 1 }) :=
      ⟨hop, congrArg (· ++ [id]) hruled, hdoomed⟩
    refine ⟨_, rfl, fun _ => ?_⟩
    simpa [hquestion, hentry, Job.rules?, hcons, hkeep] using stage_judge hasks _ _

/-- What the probe is on does not depend on who asks. -/
theorem World.target_of_grip? {w w' : World} {probe : Probe} {grip : Grip}
    (h : w.grip? probe = some (grip, w')) :
    (∀ v, grip.handle v = probe.target v) ∧ probe.target w' = probe.target w := by
  cases probe with
  | fresh target =>
    obtain ⟨v, -, hv⟩ := Option.map_eq_some_iff.1 h
    cases hv
    exact ⟨fun _ => rfl, rfl⟩
  | register r =>
    cases h
    exact ⟨fun _ => rfl, rfl⟩

theorem World.target_of_obtain? {w w' : World} {source : Source} {h : Handle}
    (hw : w.obtain? source = some (h, w')) : source.target w = h := by
  cases source with
  | fresh target =>
    obtain ⟨v, -, hv⟩ := Option.map_eq_some_iff.1 hw
    cases hv
    rfl
  | copied | taken =>
    cases hw
    rfl

/-- An operation that has no action to start with gives up, or asks for a hash, or
goes through its registry. -/
inductive RegistryOp.Opens (op : RegistryOp) (w : World) : Prop where
  | declines (w' : World) (answer : Answer) (hrun : op.run w = .ok (.say w' answer))
      (hop : op.Declines w w answer)
  | goesOn (w' : World) (u : Job) (hrun : op.run w = .ok { world := w', jobs := [u] })
      (hop : op.Stage w w' [] [] u)

theorem RegistryOp.opens {op : RegistryOp} {w : World} (hact : op.action? w = none) :
    op.Opens w := by
  cases op with
  | insert s source save =>
    cases hobtain : w.obtain? source with
    | none => exact .declines w .dead (by simp only [run, hobtain]) hobtain
    | some obtained =>
      obtain ⟨h, w'⟩ := obtained
      have htarget := World.target_of_obtain? hobtain
      cases h with
      | none =>
        exact .declines w' (.failed .nullListener) (by simp only [run, hobtain])
          (Or.inl ⟨rfl, htarget⟩)
      | some o =>
        exact .goesOn w' (.ask (.insert s (some o) save)) (by simp only [run, hobtain])
          ⟨⟨source, rfl, htarget.symm⟩, fun _ => ⟨o, htarget, rfl⟩⟩
  | insertKey s k save =>
    cases hkey : w.key? k with
    | none => exact .declines w .noKey (by simp only [run, hkey]) hkey
    | some key =>
      simp only [action?, hkey, Option.bind_some] at hact
      split at hact
      · rename_i hnull
        exact .declines (w.setKey k none) (.failed .nullListener) (by simp only [run, hkey, hnull])
          ⟨rfl, by simp [hkey, hnull]⟩
      · cases hact
  | find s probe save | contains s probe | remove s probe dest =>
    cases hgrip : w.grip? probe with
    | none => exact .declines w .dead (by simp only [run, hgrip]) hgrip
    | some gripped =>
      obtain ⟨grip, w'⟩ := gripped
      obtain ⟨hgrips, htarget⟩ := World.target_of_grip? hgrip
      have hprobe : probe.target w = grip.handle w' := htarget.symm.trans (hgrips w').symm
      cases hhandle : grip.handle w' with
      | none =>
        apply Opens.declines w'
        · simp only [run, hgrip, hhandle]
          rfl
        · exact hprobe.trans hhandle
      | some o =>
        apply Opens.goesOn w'
        · simp only [run, hgrip, hhandle]
          rfl
        · exact ⟨⟨probe, rfl, hgrips⟩, fun _ => ⟨o, hprobe.trans hhandle, hhandle⟩⟩
  | get s n | removeId s n dest =>
    have hid : w.savedId? n = none := Option.map_eq_none_iff.1 hact
    exact .declines w .noId (by simp only [run, hid]) hid
  | sameId i j =>
    cases hi : w.savedId? i with
    | none => exact .declines w .noId (by simp only [run, hi]) (Or.inl hi)
    | some x =>
      cases hj : w.savedId? j with
      | none => exact .declines w .noId (by simp only [run, hi, hj]) (Or.inr hj)
      | some y =>
        exact .declines w (.flag (x == y)) (by simp only [run, hi, hj]) ⟨x, y, hi, hj, rfl⟩
  | retain s keep => exact .goesOn w (.screen _) rfl ⟨⟨keep, rfl⟩, rfl, rfl⟩
  | clear | discard | size | entries => cases hact

namespace Machine

/-- In the next turn, the operation that began in the world `v` takes its action,
or comes to its answer without one. The reply goes by the contents that the action
meets. -/
def Settles (op : RegistryOp) (v : World) (asked : List ListenerId)
    (ruled : List (ListenerId × Bool)) (m : Machine) (answer : Answer) : Prop :=
  (∃ x, m.act? = some x ∧ op.Performs v m.world asked ruled x ∧
      x.reply = (Roster.apply (m.world.rosters x.registry) x.action).1 ∧
      answer = op.conclude x.reply) ∨
    (m.act? = none ∧ op.Declines v m.world answer)

/-- What a turn on the way to an action comes to: the operation settles, or goes on
to another stage, perhaps with foreign code before it. A retaining step may have asked
about another entry by then, or have decided about one. -/
inductive Advances (op : RegistryOp) (v : World) (asked : List ListenerId)
    (ruled : List (ListenerId × Bool)) (a b : Machine) (rest : List Job) : Prop where
  | settles (closing : List Job) (answer : Answer) (hop : Settles op v asked ruled a answer)
      (hclosing : ∀ u ∈ closing, Job.Closing u) (hjobs : b.jobs = closing ++ .answer answer :: rest)
  | goesOn (u : Job) (hact : a.act? = none)
      (hop : op.Stage v b.world (asked ++ a.question?.toList) (ruled ++ (ruling? rest a b).toList) u)
      (hjobs : b.jobs = u :: rest)
  | calls (above : List Job) (u : Job) (hact : a.act? = none)
      (hop : ∀ w, op.Stage v w (asked ++ a.question?.toList)
        (ruled ++ (ruling? rest a b).toList) u)
      (hjobs : b.jobs = above ++ u :: rest)

variable {op : RegistryOp} {v : World} {asked : List ListenerId} {ruled : List (ListenerId × Bool)}
  {a b : Machine} {t : Job} {rest : List Job}

/-- A job that calls nothing and asks nobody is followed by its own jobs. -/
theorem Turn.eq_of_run (h : Turn a b) (hjobs : a.jobs = t :: rest) {out : Outcome}
    (hrun : t.run a.world = .ok out) (hcall : out.call = none) (ht : t.visits = false) :
    b = ⟨out.world, out.jobs ++ rest, none⟩ := by
  cases h.follows hjobs hrun with
  | next => rfl
  | hook _ _ hcall' =>
    rw [hcall] at hcall'
    cases hcall'
  | predicate _ _ hscreen =>
    subst hscreen
    cases ht

/-- A turn with an action takes it. -/
theorem Turn.advances_of_action (h : Turn a b) (ha : a.world.Consistent)
    (hjobs : a.jobs = t :: rest) (hstage : op.Stage v a.world asked ruled t) {s : Nat}
    {action : Action} (hact : t.action? a.world = some (s, action)) :
    Advances op v asked ruled a b rest := by
  obtain ⟨out, r, -, -, htakes, rfl⟩ := h.takes ha hjobs hact
  obtain ⟨hs, hout⟩ := htakes.jobs
  obtain ⟨hop, hconclude⟩ :=
    op.performs_of_stage hstage hact (Roster.apply (a.world.rosters s) action).1
  exact .settles (hs.map .release) _
    (Or.inl ⟨_, act?_of_action ha hjobs hact, hop, rfl, hconclude⟩) (Job.closing_releases id hs)
    (by simp [hout, World.rosters])

/-- An operation that has no action to start with settles or goes on. -/
theorem Turn.advances_of_perform (h : Turn a b)
    (hjobs : a.jobs = .perform (.op (.registry op)) :: rest) (hact : op.action? a.world = none) :
    Advances op a.world [] [] a b rest := by
  have hnone : a.act? = none := act?_of_no_action hjobs hact
  have hasked : a.question? = none := by simp only [question?, hjobs]
  have hruled : ruling? rest a b = none := ruling?_of_rules? hjobs (fun _ => rfl) b
  cases op.opens hact with
  | declines w answer hrun hop =>
    obtain rfl := h.eq_of_run hjobs hrun rfl rfl
    exact .settles [] answer (Or.inr ⟨hnone, hop⟩) (by simp) rfl
  | goesOn w u hrun hop =>
    obtain rfl := h.eq_of_run hjobs hrun rfl rfl
    refine .goesOn u hnone ?_ rfl
    rw [hasked, hruled]
    exact hop

/-- A retaining step that gets a hash decides by it and goes on. -/
theorem Turn.advances_of_judge (h : Turn a b) (hjobs : a.jobs = t :: rest) {bound : UInt64}
    {id : ListenerId} {sc : Screening} (hasks : op.Asks v asked ruled (.screen bound id sc))
    {keep : Bool} {w : World}
    (hrun : t.run a.world = .ok { world := w, jobs := [.screen (sc.judge id keep)] })
    (hrules : t.rules? a.world (.screen (sc.judge id keep)) = some (id, keep))
    (hask : a.question? = none) (ht : t.visits = false) (hact : a.act? = none) :
    Advances op v asked ruled a b rest := by
  obtain rfl := h.eq_of_run hjobs hrun rfl ht
  refine .calls [] _ hact (fun w' => ?_) rfl
  rw [hask, ruling?_of_jobs hjobs (List.nil_append _).symm, hrules]
  simpa using RegistryOp.stage_judge hasks keep w'

/-- An operation that asks for a hash gets it from the hash function, after what
foreign code that function runs. -/
theorem Turn.advances_of_ask (h : Turn a b) {use : HashUse} (hjobs : a.jobs = .ask use :: rest)
    (hstage : op.Stage v a.world asked ruled (.ask use)) (hact : a.act? = none)
    (hb : b.fault = none) : Advances op v asked ruled a b rest := by
  have hasked : a.question? = none := by simp only [question?, hjobs]
  obtain ⟨hasks, hsubject⟩ := hstage
  cases hprobe : use.probe.handle a.world with
  | none =>
    cases use with
    | screen bound id sc =>
      have hrun : (Job.ask (.screen bound id sc)).run a.world = .ok {
          world := a.world
          jobs := [.screen (sc.judge id (HashOutcome.isBelow bound (.ok 0)))] } := by
        simp only [Job.run, hprobe]
        rfl
      exact h.advances_of_judge hjobs hasks hrun rfl hasked rfl hact
    | _ =>
      -- an operation on null came to its answer before it asked
      obtain ⟨o, -, ho⟩ := hsubject rfl
      rw [hprobe] at ho
      cases ho
  | some o =>
    have hnext : ∀ w, op.Stage v w asked ruled (.hashed o use) := by
      refine fun w => ⟨hasks, fun hscreen => ?_⟩
      obtain ⟨o', hsubject, ho'⟩ := hsubject hscreen
      rw [hsubject, ← ho', hprobe]
    obtain ⟨w, t, js, rfl, ⟨f, -, rfl⟩ | ⟨t', out, w', above, ht', hrun, -, -, rfl⟩⟩ := h.inv
    · cases hb
    · obtain ⟨rfl, rfl⟩ := List.cons.inj hjobs
      obtain rfl : t' = .ask use := by
        rcases ht' with rfl | ⟨_, _, _, hask, _⟩
        · rfl
        · cases hask
      simp only [Job.run, hprobe] at hrun
      cases hrun
      have hruled : (Job.ask use).rules? w (.hashed o use) = none := by cases use <;> rfl
      have hbelow : above ++ ([.hashed o use] ++ js) = above ++ .hashed o use :: js := rfl
      refine .calls above (.hashed o use) hact (fun w' => ?_) hbelow
      rw [hasked, ruling?_of_jobs rfl hbelow, hruled]
      simpa using hnext w'

/-- An operation that gets no hash gives up. A retaining step decides by the hash
and goes on. -/
theorem Turn.advances_of_hashed (h : Turn a b) {o : ObjectId} {use : HashUse}
    (hjobs : a.jobs = .hashed o use :: rest)
    (hstage : op.Stage v a.world asked ruled (.hashed o use))
    (haction : use.action? a.world (a.world.hashOutcome o) = none) (hact : a.act? = none) :
    Advances op v asked ruled a b rest := by
  have hasked : a.question? = none := by simp only [question?, hjobs]
  obtain ⟨hasks, hsubject⟩ := hstage
  cases use with
  | screen bound id sc => exact h.advances_of_judge hjobs hasks rfl rfl hasked rfl hact
  | insert s h' save =>
    obtain ⟨e, hout⟩ := HashUse.refused_of_no_action hasks rfl haction
    obtain ⟨source, rfl, rfl⟩ := hasks
    obtain rfl := h.eq_of_run hjobs (by simp only [Job.run, hout]; rfl) rfl rfl
    exact .settles [_, _] (.failed e) (Or.inr ⟨hact, Or.inr ⟨o, hsubject rfl, hout⟩⟩)
      (by simp [Job.Closing]) rfl
  | find s grip save | contains s grip | remove s grip dest =>
    obtain ⟨e, hout⟩ := HashUse.refused_of_no_action hasks rfl haction
    obtain ⟨probe, rfl, -⟩ := hasks
    obtain rfl := h.eq_of_run hjobs (by simp only [Job.run, hout]; rfl) rfl rfl
    exact .settles [_] (.failed e) (Or.inr ⟨hact, o, hsubject rfl, hout⟩)
      (by simp [Job.Closing]) rfl
  | _ => exact hasks.elim

/-- A retaining step with slots left to visit visits the next one. -/
theorem Turn.advances_of_screen (h : Turn a b) {sc : Screening}
    (hjobs : a.jobs = .screen sc :: rest) (hstage : op.Stage v a.world asked ruled (.screen sc))
    (hpending : sc.pending ≠ []) (hact : a.act? = none) (hb : b.fault = none) :
    Advances op v asked ruled a b rest := by
  obtain ⟨w, t, js, rfl, ⟨f, -, rfl⟩ | ⟨t', out, w', above, ht', hrun, -, -, rfl⟩⟩ := h.inv
  · cases hb
  obtain ⟨rfl, rfl⟩ := List.cons.inj hjobs
  obtain ⟨u, hu, hnext⟩ : ∃ u, out.jobs = [u] ∧ ∀ w', op.Stage v w'
      (asked ++ (sc.question? w).toList) (ruled ++ ((Job.screen sc).rules? w u).toList) u := by
    rcases ht' with rfl | ⟨_, rule, -, ⟨⟩, rfl⟩
    · exact RegistryOp.stage_screen hrun hpending hstage
    · -- a stage says nothing about how the retaining step decides
      have hstage : op.Stage v w asked ruled (.screen { sc with keep := rule }) := hstage
      obtain ⟨u, hu, hnext⟩ := RegistryOp.stage_screen hrun hpending hstage
      rw [Job.rules?_keep] at hnext
      exact ⟨u, hu, hnext⟩
  have hbelow : above ++ (out.jobs ++ js) = above ++ u :: js := by rw [hu]; rfl
  refine .calls above u hact (fun w' => ?_) hbelow
  rw [ruling?_of_jobs rfl hbelow]
  exact hnext w'

/-- **Every stage leads on**: to the action or an answer, or to another stage. -/
theorem Turn.advances (h : Turn a b) (ha : a.world.Consistent) (hjobs : a.jobs = t :: rest)
    (hstage : op.Stage v a.world asked ruled t) (hb : b.fault = none) :
    Advances op v asked ruled a b rest := by
  cases haction : t.action? a.world with
  | some sa => exact h.advances_of_action ha hjobs hstage haction
  | none =>
    have hact : a.act? = none := act?_of_no_action hjobs haction
    cases t with
    | perform step =>
      cases step with
      | op op' =>
        cases op' with
        | registry op' =>
          obtain ⟨rfl, rfl, rfl, rfl⟩ := hstage
          exact h.advances_of_perform hjobs haction
        | _ => exact hstage.elim
      | batch => exact hstage.elim
    | ask use => exact h.advances_of_ask hjobs hstage hact hb
    | hashed o use => exact h.advances_of_hashed hjobs hstage haction hact
    | screen sc =>
      refine h.advances_of_screen hjobs hstage (fun hpending => ?_) hact hb
      simp [Job.action?, hpending] at haction
    | _ => exact hstage.elim

end Machine

end ListenerRegistry
