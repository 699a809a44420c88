import ListenerRegistry.Proofs.Pruning

/-!
# What operations ask of their registries

An operation takes handles, keys and ids out of registers, it may need a hash, and a
retaining step needs decisions. Once all this is there, what the operation asks of its
registry is a request: an action to take, or nothing but an answer that is settled already.
As long as foreign code leaves the registry alone meanwhile, the registry serves the
request, and neither its contents afterwards nor the answer depend on anything else
(`Complete.serves`).
-/

namespace ListenerRegistry

/-! ## Requests -/

/-- A hash that an operation asked for. -/
structure Hashing where
  object : ObjectId
  outcome : HashOutcome
  /-- What the operation looks at when the hash is there. -/
  handle : Handle
deriving DecidableEq

namespace RegistryOp

/-- The registry that an operation is about. -/
def registry? : RegistryOp → Option Nat
  | insert s _ _ | insertKey s _ _ | find s _ _ | contains s _ | remove s _ _ => some s
  | get s _ | removeId s _ _ | retain s _ | clear s | discard s | size s | entries s => some s
  | sameId _ _ => none

/-- The object that an operation hashes. There is none if there is no handle to be had in
the world `v`, or a null one. -/
def sought (v : World) : RegistryOp → Handle
  | insert _ source _ => (v.obtain? source).bind fun _ => source.target v
  | find _ probe _ | contains _ probe | remove _ probe _ =>
      (v.grip? probe).bind fun _ => probe.target v
  | _ => none

/-- The request of an operation that hashes first. If there was no hash, there was no
handle, or a null one, for which the answer is `missing`. -/
def seek (hashing? : Option Hashing) (obtained : Bool) (missing : Answer) (act : Key → Action) :
    Except Answer Action :=
  match hashing? with
  | some x =>
      match x.outcome with
      | .ok hash => .ok (act ⟨x.handle, hash⟩)
      | .error e => .error (.failed e)
  | none => .error (if obtained then missing else .dead)

/-- What an operation that begins in the world `v` asks of its registry, given the hash
that it got and what it decided about the entries. -/
def request (v : World) (hashing? : Option Hashing) (ruled : List (ListenerId × Bool)) :
    RegistryOp → Except Answer Action
  | insert _ source _ => seek hashing? (v.obtain? source).isSome (.failed .nullListener) .insert
  | find _ probe _ => seek hashing? (v.grip? probe).isSome (.located none) .find
  | contains _ probe => seek hashing? (v.grip? probe).isSome (.verdict false) .find
  | remove _ probe _ => seek hashing? (v.grip? probe).isSome (.withdrawn none) .withdraw
  | insertKey _ k _ =>
      match v.key? k with
      | none => .error .noKey
      | some key => if key.handle = none then .error (.failed .nullListener) else .ok (.insert key)
  | get _ n => (v.savedId? n).elim (.error .noId) fun id => .ok (.get id)
  | removeId _ n _ => (v.savedId? n).elim (.error .noId) fun id => .ok (.removeId id)
  | retain _ _ => .ok (.strike (Machine.rejected ruled))
  | clear _ => .ok .clear
  | discard _ => .ok .discard
  | size _ => .ok .size
  | entries _ => .ok .entries
  | sameId i j =>
      match v.savedId? i, v.savedId? j with
      | some x, some y => .error (.flag (x == y))
      | _, _ => .error .noId

end RegistryOp

/-- Serves a request of the operation `op`. -/
def Registry.serve (r : Registry) (op : RegistryOp) :
    Except Answer Action → Except Fault (Answer × Registry)
  | .error answer => .ok (answer, r)
  | .ok action => do
      let (reply, r) ← r.perform action
      return (op.conclude reply, r)

theorem Registry.serve_of_perform {r r' : Registry} {action : Action} {reply : Reply}
    (h : r.perform action = .ok (reply, r')) (op : RegistryOp) :
    r.serve op (.ok action) = .ok (op.conclude reply, r') := by
  simp only [serve, h, bind, Except.bind]
  rfl

theorem Registry.perform_of_serve {r r' : Registry} {op : RegistryOp} {action : Action}
    {answer : Answer} (h : r.serve op (.ok action) = .ok (answer, r')) :
    ∃ reply, r.perform action = .ok (reply, r') ∧ answer = op.conclude reply := by
  simp only [serve, bind, Except.bind] at h
  split at h
  · cases h
  · rename_i v hv
    cases h
    exact ⟨v.1, hv, rfl⟩

/-! ## How operations begin -/

namespace RegistryOp

/-- The operation asks for the hash of `o`, and this is what for. With the hash it takes
its action on the registry `s`. Without, it releases what it owns and gives the error. -/
structure Seeks (op : RegistryOp) (v : World) (s : Nat) (o : ObjectId) (use : HashUse) :
    Prop where
  sought : op.sought v = some o
  /-- Nobody can overwrite a handle that is to be stored. -/
  kept : ∀ s source save, op = insert s source save → ∀ w, use.probe.handle w = some o
  acts : ∀ w hash, ∃ action, use.action? w (.ok hash) = some (s, action) ∧
    (∀ reply, use.conclude reply = op.conclude reply) ∧
    ∀ ruled, op.request v (some ⟨o, .ok hash, use.probe.handle w⟩) ruled = .ok action
  refuses : ∀ w e, use.action? w (.error e) = none ∧
    (∀ handle ruled, op.request v (some ⟨o, .error e, handle⟩) ruled = .error (.failed e)) ∧
    ∃ closing, use.resume w (.error e) = .ok { world := w, jobs := closing ++ [.answer (.failed e)] } ∧
      ∀ u ∈ closing, u.Closing

/-- **How an operation begins** in the world `v`. -/
inductive Begins (op : RegistryOp) (v : World) : Prop where
  /-- It takes its action at once. -/
  | acts (s : Nat) (action : Action) (hregistry : op.registry? = some s)
      (haction : op.action? v = some (s, action)) (hsought : op.sought v = none)
      (hrequest : ∀ ruled, op.request v none ruled = .ok action)
  /-- It comes to its answer at once. -/
  | answers (w : World) (answer : Answer) (hrun : op.run v = .ok (.say w answer))
      (haction : op.action? v = none) (hsought : op.sought v = none)
      (hrequest : ∀ ruled, op.request v none ruled = .error answer)
  | asks (w : World) (s : Nat) (o : ObjectId) (use : HashUse) (hregistry : op.registry? = some s)
      (hrun : op.run v = .ok { world := w, jobs := [.ask use] }) (haction : op.action? v = none)
      (hprobe : use.probe.handle w = some o) (hseeks : op.Seeks v s o use)
  | visits (s : Nat) (keep : Keep) (hop : op = retain s keep)

variable {v : World}

theorem begins_insert (v : World) (s : Nat) (source : Source) (save : Option Nat) :
    (insert s source save).Begins v := by
  rcases hobtain : v.obtain? source with _ | ⟨h, w⟩
  · refine .answers v .dead ?_ rfl ?_ ?_
    · simp only [run, hobtain]
    · simp [sought, hobtain]
    · intro ruled
      simp [request, seek, hobtain]
  · have htarget : source.target v = h := World.target_of_obtain? hobtain
    rcases h with _ | o
    · refine .answers w (.failed .nullListener) ?_ rfl ?_ ?_
      · simp only [run, hobtain]
      · simp [sought, hobtain, htarget]
      · intro ruled
        simp [request, seek, hobtain]
    · refine .asks w s o (.insert s (some o) save) rfl ?_ rfl rfl ⟨?_, ?_, ?_, ?_⟩
      · simp only [run, hobtain]
      · simp [sought, hobtain, htarget]
      · exact fun _ _ _ _ _ => rfl
      · exact fun w hash => ⟨_, rfl, fun _ => rfl, fun _ => rfl⟩
      · exact fun w e => ⟨rfl, fun _ _ => rfl, [.release (some o), .log (.rejecting e)], rfl,
          by simp [Job.Closing]⟩

theorem begins_insertKey (v : World) (s k : Nat) (save : Option Nat) :
    (insertKey s k save).Begins v := by
  rcases hkey : v.key? k with _ | key
  · refine .answers v .noKey ?_ ?_ rfl ?_
    · simp only [run, hkey]
    · simp [action?, hkey]
    · intro ruled
      simp only [request, hkey]
  · by_cases hnull : key.handle = none
    · refine .answers (v.setKey k none) (.failed .nullListener) ?_ ?_ rfl ?_
      · simp only [run, hkey, hnull]
      · simp [action?, hkey, hnull]
      · intro ruled
        simp only [request, hkey, if_pos hnull]
    · refine .acts s (.insert key) rfl ?_ rfl ?_
      · simp [action?, hkey, hnull]
      · intro ruled
        simp only [request, hkey, if_neg hnull]

theorem begins (op : RegistryOp) (v : World) : op.Begins v := by
  cases op with
  | insert s source save => exact begins_insert v s source save
  | insertKey s k save => exact begins_insertKey v s k save
  | find s probe save | contains s probe | remove s probe dest =>
    rcases hgrip : v.grip? probe with _ | ⟨grip, w⟩
    · refine .answers v .dead ?_ rfl ?_ ?_
      · simp only [run, hgrip]
      · simp [sought, hgrip]
      · intro ruled
        simp [request, seek, hgrip]
    · obtain ⟨hgrips, htarget⟩ := World.target_of_grip? hgrip
      have htarget : probe.target v = grip.handle w := htarget.symm.trans (hgrips w).symm
      rcases hhandle : grip.handle w with _ | o
      · apply Begins.answers w
        · simp only [run, hgrip, hhandle]
          rfl
        · rfl
        · simp [sought, hgrip, htarget, hhandle]
        · intro ruled
          simp [request, seek, hgrip]
      · apply Begins.asks w s o
        · rfl
        · simp only [run, hgrip, hhandle]
          rfl
        · rfl
        · exact hhandle
        · refine ⟨by simp [sought, hgrip, htarget, hhandle], ?_, fun w hash => ?_, fun w e => ?_⟩
          · intro s source save hop
            cases hop
          · exact ⟨_, rfl, fun _ => rfl, fun _ => rfl⟩
          · exact ⟨rfl, fun _ _ => rfl, [.release grip.owned], rfl, by simp [Job.Closing]⟩
  | get s n | removeId s n dest =>
    rcases hid : v.savedId? n with _ | id
    · refine .answers v .noId ?_ ?_ rfl ?_
      · simp only [run, hid]
      · simp [action?, hid]
      · intro ruled
        simp [request, hid]
    · apply Begins.acts s
      · rfl
      · simp only [action?, hid]
        rfl
      · rfl
      · intro ruled
        simp only [request, hid]
        rfl
  | sameId i j =>
    rcases hi : v.savedId? i with _ | x
    · exact .answers v .noId (by simp only [run, hi]) rfl rfl fun _ => by simp only [request, hi]
    · rcases hj : v.savedId? j with _ | y
      · exact .answers v .noId (by simp only [run, hi, hj]) rfl rfl fun _ => by
          simp only [request, hi, hj]
      · exact .answers v (.flag (x == y)) (by simp only [run, hi, hj]) rfl rfl fun _ => by
          simp only [request, hi, hj]
  | retain s keep => exact .visits s keep rfl
  | clear s | discard s | size s | entries s => exact .acts s _ rfl rfl rfl fun _ => rfl

end RegistryOp

/-- A retaining step goes through the registry that it is about. -/
theorem RegistryOp.Stage.screening {s : Nat} {keep : Keep} {v w : World} {asked : List ListenerId}
    {ruled : List (ListenerId × Bool)} {u : Job} {sc : Screening}
    (h : (RegistryOp.retain s keep).Stage v w asked ruled u) (hu : u.screening? = some sc) :
    sc.registry = s := by
  cases u with
  | screen =>
    cases hu
    obtain ⟨⟨keep, hop⟩, -⟩ := h
    cases hop
    rfl
  | ask use | hashed o use =>
    cases use with
    | screen =>
      cases hu
      obtain ⟨⟨⟨keep, hop⟩, -⟩, -⟩ := h
      cases hop
      rfl
    | _ => cases hu
  | _ => cases hu

/-! ## Turns that leave a registry alone -/

namespace Machine

variable {a b c d e m : Machine} {t : Job} {rest : List Job} {ms : List Machine} {s : Nat}

/-- The next turn leaves the registry `s` as it is. -/
def Preserves (s : Nat) (m : Machine) : Prop :=
  match m.jobs with
  | [] => True
  | t :: _ =>
      match t.run m.world with
      | .ok out => out.world.registry s = m.world.registry s
      | .error _ => True

theorem preserves_iff : m.Preserves s ↔ ∀ t ∈ m.jobs.head?, ∀ out ∈ (t.run m.world).toOption,
    out.world.registry s = m.world.registry s := by
  unfold Preserves
  rcases m.jobs with _ | ⟨t, rest⟩
  · simp
  · cases hrun : t.run m.world <;> simp [hrun, Except.toOption]

instance (s : Nat) (m : Machine) : Decidable (m.Preserves s) :=
  decidable_of_iff' _ preserves_iff

theorem preserves_of_no_action (hjobs : m.jobs = t :: rest) (h : t.action? m.world = none) (s : Nat) :
    m.Preserves s := by
  unfold Preserves
  rw [hjobs]
  simp only
  split
  · rename_i out hrun
    exact Job.registry_run h hrun s
  · trivial

theorem Turn.registry_of_preserves (h : Turn a b) (ha : a.Preserves s) :
    b.world.registry s = a.world.registry s := by
  obtain ⟨w, t, js, rfl, ⟨f, -, rfl⟩ | ⟨t', out, w', above, ht', hrun, hw', -, rfl⟩⟩ := h.inv
  · rfl
  have hsame : out.world.registry s = w.registry s := by
    rcases ht' with rfl | ⟨sc, rule, hpending, rfl, rfl⟩
    · simpa only [Preserves, hrun] using ha
    · -- a predicate that has been consulted changes nothing in this turn
      exact Job.registry_run (by simp [Job.action?, hpending]) hrun s
  rcases hw' with rfl | ⟨hook, -, rfl⟩
  · exact hsame
  · exact hsame

theorem Run.registry_of_preserves (h : Run a ms b) (hms : ∀ x ∈ ms, x.Preserves s) :
    b.world.registry s = a.world.registry s :=
  (h.preserves_of (P := fun x => x.world.registry s = a.world.registry s)
    (fun _ _ hx hpreserves hturn => (hturn.registry_of_preserves hpreserves).trans hx) hms rfl).1

/-- No foreign code above the jobs `rest` changes the registry `s` in the next turn. -/
def Leaves (rest : List Job) (s : Nat) (m : Machine) : Prop :=
  m.jobs.length = rest.length + 1 ∨ m.Preserves s

instance (rest : List Job) (s : Nat) (m : Machine) : Decidable (m.Leaves rest s) := by
  unfold Leaves
  infer_instance

theorem Leaves.preserves {above : List Job} {u : Job} (h : m.Leaves rest s)
    (hjobs : m.jobs = t :: above ++ u :: rest) : m.Preserves s := by
  refine h.resolve_left ?_
  simp [hjobs]
  omega

/-! ## From the action or the refusal on -/

/-- An operation that has only to close and to answer leaves its registry as it is. -/
theorem Run.closes (h : Run d ms c) {closing : List Job} {answer : Answer}
    (hjobs : d.jobs = closing ++ .answer answer :: rest) (hc : c.jobs = rest)
    (hms : ∀ x ∈ ms, rest.length < x.jobs.length) :
    c.world.answer = answer ∧ (∀ x ∈ ms, ∃ above, x.jobs = above ++ .answer answer :: rest) ∧
      ((∀ x ∈ ms, x.Leaves rest s) → c.world.registry s = d.world.registry s) := by
  obtain ⟨-, hcertain, hanswer⟩ := h.answers hjobs hc hms
  refine ⟨hanswer, hcertain, fun hcalm => h.registry_of_preserves fun x hx => ?_⟩
  obtain ⟨above, habove⟩ := hcertain x hx
  rcases above with _ | ⟨t, above⟩
  · exact preserves_of_no_action habove rfl s
  · exact (hcalm x hx).preserves habove

/-- From its action on, an operation is served. -/
theorem Run.serves_of_action (h : Run e (e :: ms) c) (he : e.world.Consistent)
    (hjobs : e.jobs = t :: rest) {action : Action} (haction : t.action? e.world = some (s, action))
    (hc : c.jobs = rest) (hms : ∀ x ∈ ms, rest.length < x.jobs.length) :
    (∀ x ∈ ms, ∃ above answer, x.jobs = above ++ .answer answer :: rest) ∧
      ((∀ x ∈ ms, x.Leaves rest s) → ∃ reply,
        (e.world.registry s).perform action = .ok (reply, c.world.registry s) ∧
          c.world.answer = t.conclude reply) := by
  cases h with
  | @cons _ d _ _ hturn hrun =>
    obtain ⟨out, r, hperform, -, htakes, rfl⟩ := hturn.takes he hjobs haction
    obtain ⟨hs, hout⟩ := htakes.jobs
    have hbelow : out.jobs ++ rest = hs.map .release ++
        .answer (t.conclude (Roster.apply (e.world.registry s).slots action).1) :: rest := by
      rw [hout, List.append_assoc]
      rfl
    obtain ⟨hanswer, hcertain, hregistry⟩ := hrun.closes (s := s) hbelow hc hms
    constructor
    · intro x hx
      obtain ⟨above, habove⟩ := hcertain x hx
      exact ⟨above, _, habove⟩
    · intro hcalm
      refine ⟨_, ?_, hanswer⟩
      rw [hregistry hcalm, hperform, htakes.acted]

/-- An operation that has no action to take leaves its registry as it is. -/
theorem Run.serves_of_refusal (h : Run e (e :: ms) c) (hjobs : e.jobs = t :: rest)
    (haction : t.action? e.world = none) (ht : t.visits = false) {w : World} {closing : List Job}
    {answer : Answer} (hrun : t.run e.world = .ok { world := w, jobs := closing ++ [.answer answer] })
    (hc : c.jobs = rest) (hms : ∀ x ∈ ms, rest.length < x.jobs.length) :
    c.world.answer = answer ∧ (∀ x ∈ ms, ∃ above, x.jobs = above ++ .answer answer :: rest) ∧
      ((∀ x ∈ ms, x.Leaves rest s) → c.world.registry s = e.world.registry s) := by
  cases h with
  | @cons _ d _ _ hturn hrest =>
    have hsame := Job.registry_run haction hrun s
    obtain rfl := hturn.eq_of_run hjobs hrun rfl ht
    have hbelow : closing ++ [.answer answer] ++ rest = closing ++ .answer answer :: rest := by simp
    obtain ⟨hanswer, hcertain, hregistry⟩ := hrest.closes (s := s) hbelow hc hms
    exact ⟨hanswer, hcertain, fun hcalm => (hregistry hcalm).trans hsame⟩

/-! ## Hashes -/

/-- The hash that the operation above the jobs `rest` gets in the next turn. -/
def hashing? (rest : List Job) (m : Machine) : Option Hashing :=
  match m.jobs with
  | .hashed o use :: js =>
      if js.length = rest.length then some ⟨o, m.world.hashOutcome o, use.probe.handle m.world⟩
      else none
  | _ => none

/-- The hashes that the operation above the jobs `rest` gets, in order. -/
def hashings (rest : List Job) (ms : List Machine) : List Hashing := ms.filterMap (hashing? rest)

theorem hashings_append (rest : List Job) (ms ns : List Machine) :
    hashings rest (ms ++ ns) = hashings rest ms ++ hashings rest ns :=
  List.filterMap_append

theorem hashing?_of_hashed {o : ObjectId} {use : HashUse} (h : m.jobs = .hashed o use :: rest) :
    m.hashing? rest = some ⟨o, m.world.hashOutcome o, use.probe.handle m.world⟩ := by
  unfold hashing?
  rw [h]
  exact if_pos rfl

theorem hashing?_of_length_ne (h : m.jobs.length ≠ rest.length + 1) : m.hashing? rest = none := by
  unfold hashing?
  split
  · rename_i o use js hjobs
    rw [if_neg]
    intro hlength
    rw [hjobs] at h
    exact h (congrArg (· + 1) hlength)
  · rfl

/-- Where the answer is certain, no more hashes are needed. -/
theorem hashings_of_answer
    (h : ∀ x ∈ ms, ∃ above answer, x.jobs = above ++ .answer answer :: rest) :
    hashings rest ms = [] := by
  refine List.filterMap_eq_nil_iff.2 fun x hx => ?_
  obtain ⟨above, answer, hjobs⟩ := h x hx
  rcases above with _ | ⟨t, above⟩
  · unfold hashing?
    rw [hjobs]
    rfl
  · refine hashing?_of_length_ne ?_
    simp [hjobs]
    omega

theorem hashings_of_hosts (h : ∀ x ∈ ms, x.Hosts (t :: rest)) : hashings rest ms = [] := by
  refine List.filterMap_eq_nil_iff.2 fun x hx => hashing?_of_length_ne ?_
  have hlength := (h x hx).length
  simp only [List.length_cons] at hlength
  omega

end Machine

/-! ## Performances -/

namespace Performance

open Machine

/-- The foreign code that is called leaves the registry `s` alone. -/
def Undisturbed (p : Performance) (s : Nat) : Prop := ∀ x ∈ p.during, x.Leaves p.rest s

instance (p : Performance) (s : Nat) : Decidable (p.Undisturbed s) := by
  unfold Undisturbed
  infer_instance

/-- The hashes that the operation gets. -/
def hashings (p : Performance) : List Hashing := Machine.hashings p.rest p.during

/-- What the operation asks of its registry. -/
def request (p : Performance) : Except Answer Action :=
  p.op.request p.first.world p.hashings.head? p.rulings

variable {p : Performance} {s : Nat}

/-- The first turn is that of the operation's first job. -/
theorem Complete.starts (hp : p.Complete) : ∃ d ms, p.during = p.first :: ms ∧ Turn p.first d ∧
    Run d ms p.last ∧ ∀ x ∈ ms, p.rest.length < x.jobs.length := by
  obtain ⟨d, ms, hduring, hturn, hrest⟩ := hp.run.inv_of_lt (by simp [hp.begins, hp.ends])
  exact ⟨d, ms, hduring, hturn, hrest, fun x hx => hp.within x (by simp [hduring, hx])⟩

/-- **An operation that asks for a hash** waits for the hook of the hash function, and then
the hash is there. -/
theorem Complete.asks (hp : p.Complete) {w : World} {use : HashUse} {o : ObjectId}
    (hrun : p.op.run p.first.world = .ok { world := w, jobs := [.ask use] })
    (hprobe : use.probe.handle w = some o) :
    ∃ hooks h after,
      p.during = (p.first :: ⟨w, .ask use :: p.rest, none⟩ :: hooks) ++ h :: after ∧
      Run p.first (p.first :: ⟨w, .ask use :: p.rest, none⟩ :: hooks) h ∧
      Run h (h :: after) p.last ∧ h.jobs = .hashed o use :: p.rest ∧
      (∀ x ∈ hooks, x.Hosts (.hashed o use :: p.rest)) ∧
      ∀ x ∈ after, p.rest.length < x.jobs.length := by
  obtain ⟨d, ms, hduring, hturn, hrest, hlonger⟩ := hp.starts
  obtain rfl := hturn.eq_of_run hp.begins hrun rfl rfl
  have hask : (Job.ask use).run w =
      .ok { world := w.emit (.hash o), call := some ⟨.hash, o⟩, jobs := [.hashed o use] } := by
    simp only [Job.run, hprobe]
  obtain ⟨d', ms, rfl, hturn', hrest⟩ := hrest.inv_of_lt (by simp [hp.ends])
  obtain ⟨hooks, h, after, rfl, hbefore, hafter, hh, hhooks⟩ :=
    (Run.cons hturn' hrest).hosted rfl hask rfl (by simp [hp.ends])
  obtain ⟨d'', after, rfl, hturn'', hafter⟩ := hafter.inv_of_lt (by simp [hp.ends, hh])
  refine ⟨hooks, h, after, by simp [hduring], .cons hturn hbefore, .cons hturn'' hafter, hh,
    hhooks, fun x hx => hlonger x ?_⟩
  simp [hx]

/-- The turns up to the hash belong to hooks, or they act on nothing. -/
theorem Complete.asks_idle (hp : p.Complete) {w : World} {use : HashUse} {o : ObjectId}
    (haction : p.op.action? p.first.world = none) (hprobe : use.probe.handle w = some o)
    {hooks : List Machine} (hhooks : ∀ x ∈ hooks, x.Hosts (.hashed o use :: p.rest)) :
    Machine.hashings p.rest (p.first :: ⟨w, .ask use :: p.rest, none⟩ :: hooks) = [] ∧
      releases p.rest (p.first :: ⟨w, .ask use :: p.rest, none⟩ :: hooks) = [] ∧
      ((∀ x ∈ hooks, x.Leaves p.rest s) →
        ∀ x ∈ p.first :: ⟨w, .ask use :: p.rest, none⟩ :: hooks, x.Preserves s) := by
  have hfirst : p.first.hashing? p.rest = none ∧ p.first.released? p.rest = none := by
    constructor
    · simp only [hashing?, hp.begins]
    · simp only [released?, hp.begins]
  refine ⟨?_, ?_, fun hcalm => ?_⟩
  · rw [Machine.hashings, List.filterMap_cons_none hfirst.1, List.filterMap_cons_none rfl]
    exact hashings_of_hosts hhooks
  · rw [releases, List.filterMap_cons_none hfirst.2, List.filterMap_cons_none rfl]
    have hwaits : ∀ x ∈ hooks, x.Hosts ([.hashed o use] ++ p.rest) := hhooks
    exact releases_of_hosts fun x hx => (hwaits x hx).hosts
  · rw [List.forall_mem_cons, List.forall_mem_cons]
    refine ⟨preserves_of_no_action hp.begins haction s, preserves_of_no_action rfl ?_ s, fun x hx => ?_⟩
    · simp only [Job.action?, hprobe]
      rfl
    · refine (hcalm x hx).resolve_left ?_
      have hlength := (hhooks x hx).length
      simp only [List.length_cons] at hlength
      omega

/-- What an operation that asked for a hash does with it. -/
theorem Complete.serves_of_hashed {h : Machine} {after : List Machine} {o : ObjectId}
    {use : HashUse} (hrun : Run h (h :: after) p.last) (hw : h.world.Consistent)
    (hjobs : h.jobs = .hashed o use :: p.rest) (hp : p.Complete)
    (hlonger : ∀ x ∈ after, p.rest.length < x.jobs.length)
    (hseeks : p.op.Seeks p.first.world s o use) (ruled : List (ListenerId × Bool)) :
    (∀ x ∈ after, ∃ above answer, x.jobs = above ++ .answer answer :: p.rest) ∧
      ((∀ x ∈ after, x.Leaves p.rest s) →
        (h.world.registry s).serve p.op (p.op.request p.first.world
          (some ⟨o, h.world.hashOutcome o, use.probe.handle h.world⟩) ruled) =
            .ok (p.answer, p.last.world.registry s)) := by
  rcases hout : h.world.hashOutcome o with e | hash
  · obtain ⟨hnone, hrequest, closing, hresume, hclosing⟩ :=
      hseeks.refuses (h.world.modifyObject o ForeignObject.countHash) e
    rw [HashUse.action?_modifyObject, ← hout] at hnone
    rw [← hout] at hresume
    obtain ⟨hanswer, hcertain, hregistry⟩ :=
      hrun.serves_of_refusal (s := s) hjobs hnone rfl hresume hp.ends hlonger
    refine ⟨fun x hx => ?_, fun hcalm => ?_⟩
    · obtain ⟨above, habove⟩ := hcertain x hx
      exact ⟨above, _, habove⟩
    · rw [hrequest, answer, hanswer, hregistry hcalm]
      rfl
  · obtain ⟨action, haction, hconclude, hrequest⟩ := hseeks.acts h.world hash
    rw [← hout] at haction
    obtain ⟨hcertain, hserves⟩ := hrun.serves_of_action hw hjobs haction hp.ends hlonger
    refine ⟨hcertain, fun hcalm => ?_⟩
    obtain ⟨reply, hperform, hanswer⟩ := hserves hcalm
    rw [hrequest, Registry.serve_of_perform hperform, answer, hanswer, ← hconclude]
    rfl

/-- If there is an object to hash, the operation hashes it once, and otherwise it hashes
nothing. -/
def Hashes (p : Performance) : Prop :=
  (p.op.sought p.first.world = none ∧ p.hashings = []) ∨
    ∃ s o use, ∃ h ∈ p.during, p.op.Seeks p.first.world s o use ∧
      p.hashings = [⟨o, h.world.hashOutcome o, use.probe.handle h.world⟩]

/-- An operation that settles at once hashes nothing. -/
theorem Complete.hashings_eq_nil (hp : p.Complete) {ms : List Machine}
    (hduring : p.during = p.first :: ms)
    (hms : ∀ x ∈ ms, ∃ above answer, x.jobs = above ++ .answer answer :: p.rest) :
    p.hashings = [] := by
  have hfirst : p.first.hashing? p.rest = none := by simp only [hashing?, hp.begins]
  rw [hashings, hduring, Machine.hashings, List.filterMap_cons_none hfirst]
  exact hashings_of_answer hms

/-- An operation that goes through no entries gets its hash, if it needs one, and is served. -/
theorem Complete.goes (hp : p.Complete) (hw : p.first.world.Consistent)
    (hretain : ∀ s keep, p.op ≠ .retain s keep) :
    p.Hashes ∧ ∀ s, p.op.registry? = some s → p.Undisturbed s →
      (p.first.world.registry s).serve p.op p.request = .ok (p.answer, p.last.world.registry s) := by
  obtain ⟨d, ms, hduring, hturn, hrest, hlonger⟩ := hp.starts
  cases p.op.begins p.first.world with
  | acts s action hregistry haction hsought hrequest =>
    obtain ⟨hcertain, hserves⟩ :=
      (Run.cons hturn hrest).serves_of_action hw hp.begins haction hp.ends hlonger
    have hnone := hp.hashings_eq_nil hduring hcertain
    refine ⟨Or.inl ⟨hsought, hnone⟩, fun s' hs' hcalm => ?_⟩
    obtain rfl : s' = s := Option.some.inj (hs'.symm.trans hregistry)
    obtain ⟨reply, hperform, hanswer⟩ := hserves fun x hx => hcalm x (by simp [hduring, hx])
    rw [request, hnone, List.head?_nil, hrequest, Registry.serve_of_perform hperform, answer, hanswer]
    rfl
  | answers w answer hrun haction hsought hrequest =>
    have hsay : (Job.perform (.op (.registry p.op))).run p.first.world =
        .ok { world := w, jobs := [] ++ [.answer answer] } := hrun
    have hsettled := fun s => (Run.cons hturn hrest).serves_of_refusal (s := s) hp.begins haction
      rfl hsay hp.ends hlonger
    have hnone := hp.hashings_eq_nil hduring fun x hx => by
      obtain ⟨above, habove⟩ := (hsettled 0).2.1 x hx
      exact ⟨above, _, habove⟩
    refine ⟨Or.inl ⟨hsought, hnone⟩, fun s _ hcalm => ?_⟩
    obtain ⟨hanswer, -, hregistry⟩ := hsettled s
    rw [request, hnone, List.head?_nil, hrequest, Performance.answer, hanswer,
      hregistry fun x hx => hcalm x (by simp [hduring, hx])]
    rfl
  | asks w s o use hregistry hrun haction hprobe hseeks =>
    obtain ⟨hooks, h, after, hduring, hbefore, hafter, hjobs, hhooks, hlonger⟩ := hp.asks hrun hprobe
    have hconsistent : h.world.Consistent := (hbefore.preserves_consistent hw).1
    have hsettled := Complete.serves_of_hashed hafter hconsistent hjobs hp hlonger hseeks
    have hhash : p.hashings = [⟨o, h.world.hashOutcome o, use.probe.handle h.world⟩] := by
      rw [hashings, hduring, hashings_append, (hp.asks_idle (s := s) haction hprobe hhooks).1,
        List.nil_append, Machine.hashings, List.filterMap_cons_some (hashing?_of_hashed hjobs)]
      exact congrArg _ (hashings_of_answer (hsettled []).1)
    refine ⟨Or.inr ⟨s, o, use, h, by simp [hduring], hseeks, hhash⟩, fun s' hs' hcalm => ?_⟩
    obtain rfl : s' = s := Option.some.inj (hs'.symm.trans hregistry)
    -- up to the hash, the registry stays as it was
    have hpreserves := (hp.asks_idle haction hprobe hhooks).2.2 fun x hx => hcalm x (by simp [hduring, hx])
    rw [request, hhash, List.head?_cons, ← hbefore.registry_of_preserves hpreserves]
    exact (hsettled p.rulings).2 fun x hx => hcalm x (by simp [hduring, hx])
  | visits s keep hop => exact absurd hop (hretain s keep)

/-- The hash that an operation gets is the only one that it asks for. -/
theorem Complete.hashings_eq (hp : p.Complete) (hw : p.first.world.Consistent)
    (hretain : ∀ s keep, p.op ≠ .retain s keep) {m : Machine} (hm : m ∈ p.during) {x : Hashing}
    (hx : m.hashing? p.rest = some x) : p.hashings = [x] := by
  have hmem : x ∈ p.hashings := List.mem_filterMap.2 ⟨m, hm, hx⟩
  rcases (hp.goes hw hretain).1 with ⟨-, hnone⟩ | ⟨_, _, _, _, -, -, hone⟩
  · rw [hnone] at hmem
    cases hmem
  · rw [hone, List.mem_singleton] at hmem
    rw [hone, hmem]

/-- Foreign code that leaves the registry of a retaining step alone respects it. -/
theorem respects_of_leaves {x : Machine} {above : List Job} {u : Job}
    (hjobs : x.jobs = above ++ u :: p.rest) (hu : ∀ sc ∈ u.screening?, sc.registry = s)
    (hx : x.Leaves p.rest s) : x.Respects p.rest := by
  refine respects_iff.2 fun t ht out hout sc hsc => ?_
  rcases above with _ | ⟨t', above⟩
  · -- the step itself is on top, and nothing waits on it
    simp [hjobs] at hsc
  · rw [hjobs, List.cons_append, List.tail_cons, getElem?_reverse_above, Option.bind_some] at hsc
    rw [hu sc hsc]
    exact preserves_iff.1 (hx.preserves hjobs) t ht out hout

theorem Complete.respects (hp : p.Complete) (hw : p.first.world.Consistent) {keep : Keep}
    (hop : p.op = .retain s keep) (hcalm : p.Undisturbed s) : ∀ x ∈ p.during, x.Respects p.rest := by
  obtain ⟨before, after, c, d, closing, answer, hduring, hbefore, ⟨t, hc⟩, -, -, -, hafter, -⟩ :=
    hp.serialized hw
  have hown {u : Job} (hu : u.screening? = none) : ∀ sc ∈ u.screening?, sc.registry = s := by
    rw [hu]
    simp
  intro x hx
  have hleaves := hcalm x hx
  rw [hduring, List.mem_append, List.mem_cons] at hx
  rcases hx with hx | rfl | hx
  · obtain ⟨above, u, hjobs, ⟨w, asked, ruled, hstage⟩, -⟩ := hbefore x hx
    refine respects_of_leaves hjobs (fun sc hsc => ?_) hleaves
    rw [hop] at hstage
    exact hstage.screening hsc
  · -- the turn is the step's own
    unfold Respects
    rw [hc]
    simp
  · obtain ⟨above, hjobs⟩ := hafter x hx
    exact respects_of_leaves hjobs (hown rfl) hleaves

/-- **Operations are served.** If foreign code leaves the registry alone meanwhile, what an
operation answers and what it makes of its registry depend on what the registry was and on
the request only. -/
theorem Complete.serves (hp : p.Complete) (hw : p.first.world.Consistent)
    (hpeopled : p.first.world.Peopled) (hs : p.op.registry? = some s) (hcalm : p.Undisturbed s) :
    (p.first.world.registry s).serve p.op p.request = .ok (p.answer, p.last.world.registry s) := by
  by_cases hretain : ∃ s keep, p.op = .retain s keep
  · obtain ⟨s', keep, hop⟩ := hretain
    obtain rfl : s' = s := by
      rw [hop] at hs
      exact Option.some.inj hs
    obtain ⟨before, e, after, sc, hdecided⟩ :=
      hp.decides hop hw hpeopled (hp.respects hw hop hcalm)
    obtain ⟨hcertain, hserves⟩ := (hdecided.run hp).2.serves_of_action
      (hdecided.consistent hp hw) hdecided.jobs hdecided.action? hp.ends (hdecided.within hp)
    obtain ⟨reply, hperform, hanswer⟩ := hserves fun x hx => hcalm x (by simp [hdecided.during, hx])
    have hrequest : p.request =
        .ok (.strike (rejected (Machine.rulings p.rest (before ++ [e])))) := by
      rw [request, hop, ← rulings_eq hdecided.during hdecided.jobs hdecided.action? hcertain]
      rfl
    rw [hrequest, ← hdecided.untouched e (by simp), Registry.serve_of_perform hperform, answer,
      hanswer, hop]
    rfl
  · exact (hp.goes hw fun s keep hop => hretain ⟨s, keep, hop⟩).2 s hs hcalm

end Performance

end ListenerRegistry
