import ListenerRegistry.Proofs.Stages

/-!
# Operations serialize

An operation on a registry hashes first, then takes its action, and releases
handles last. Foreign code runs in between and may operate on the same registry,
but the operation's own part is one atomic operation: its place in the history is
after the hash function has returned and before the first release, and what
the operation answers is concluded from the reply that it gets there.
-/

namespace ListenerRegistry

namespace Machine

variable {op : RegistryOp} {v : World} {asked : List ListenerId} {ruled : List (ListenerId × Bool)}
  {a b : Machine} {t : Job} {rest : List Job}

/-! ## Whole operations -/

/-- The operation is on the way to its action. Foreign code may be at work `above`;
if there is none, the next turn acts on no registry. -/
def Underway (op : RegistryOp) (v : World) (rest : List Job) (m : Machine) : Prop :=
  ∃ above u, m.jobs = above ++ u :: rest ∧ (∃ w asked ruled, op.Stage v w asked ruled u) ∧
    (above = [] → m.act? = none)

/-- The operation that began in the world `v` is one atomic operation in the run that
starts with the turns of `ms` and ends in `b`. So far it has `asked` about some entries
and `ruled` on them. First it is on the way, then it settles in the turn of `c`, by what
it has asked and decided up to there. From then on the answer is certain; what it has
left to do is to release handles and to log. -/
def Serialized (op : RegistryOp) (v : World) (asked : List ListenerId)
    (ruled : List (ListenerId × Bool)) (rest : List Job) (ms : List Machine) (b : Machine) : Prop :=
  ∃ (before after : List Machine) (c d : Machine) (closing : List Job) (answer : Answer),
    ms = before ++ c :: d :: after ∧
    (∀ e ∈ before, Underway op v rest e) ∧
    (∃ t, c.jobs = t :: rest) ∧
    Settles op v (asked ++ questions rest before) (ruled ++ rulings rest (before ++ [c])) c answer ∧
    d.jobs = closing ++ .answer answer :: rest ∧ (∀ u ∈ closing, u.Closing) ∧
    (∀ e ∈ d :: after, ∃ above, e.jobs = above ++ .answer answer :: rest) ∧
    b.world.answer = answer

/-- An operation that serializes once it is further on its way serializes. -/
theorem Serialized.of_suffix {before ms : List Machine} {e : Machine}
    (h : Serialized op v (asked ++ questions rest before) (ruled ++ rulings rest (before ++ [e])) rest
      (e :: ms) b)
    (hbefore : ∀ x ∈ before, Underway op v rest x) :
    Serialized op v asked ruled rest (before ++ e :: ms) b := by
  obtain ⟨before', after, c, d, closing, answer, hms, hbefore', ht, hsettles, hrest⟩ := h
  obtain ⟨tail, htail⟩ : ∃ tail, before' ++ [c] = e :: tail := by
    cases before' with
    | nil =>
      obtain ⟨rfl, -⟩ := List.cons.inj hms
      exact ⟨[], rfl⟩
    | cons e' before' =>
      obtain ⟨rfl, -⟩ := List.cons.inj hms
      exact ⟨before' ++ [c], rfl⟩
  refine ⟨before ++ before', after, c, d, closing, answer, by rw [hms, List.append_assoc], ?_, ht,
    ?_, hrest⟩
  · exact List.forall_mem_append.2 ⟨hbefore, hbefore'⟩
  · rw [questions_append, ← List.append_assoc, List.append_assoc before, htail, rulings_append,
      ← List.append_assoc, ← htail]
    exact hsettles

/-- An operation that serializes after one more turn, and after the foreign code that runs
then, serializes. -/
theorem Serialized.of_turn {e c : Machine} {u : Job} {during after : List Machine}
    (hjobs : a.jobs = t :: rest) (hduring : Run e during c)
    (htops : ∀ d ∈ during, ∃ t above, d.jobs = t :: above ++ u :: rest)
    (h : Serialized op v (asked ++ a.question?.toList) (ruled ++ (ruling? rest a e).toList) rest
      (c :: after) b)
    (hbefore : ∀ d ∈ a :: during, Underway op v rest d) :
    Serialized op v asked ruled rest (a :: (during ++ c :: after)) b := by
  rw [← questions_cons hjobs htops, ← rulings_cons hduring htops] at h
  exact h.of_suffix hbefore

/-- An operation that is certain of its answer returns with it. -/
theorem Run.answers {ms : List Machine} (h : Run a ms b) {closing : List Job} {answer : Answer}
    (hjobs : a.jobs = closing ++ .answer answer :: rest) (hb : b.jobs = rest)
    (hms : ∀ m ∈ ms, rest.length < m.jobs.length) :
    (∃ after, ms = a :: after) ∧ (∀ e ∈ ms, ∃ above, e.jobs = above ++ .answer answer :: rest) ∧
      b.world.answer = answer := by
  obtain ⟨during, c, after, rfl, hduring, hafter, hc, htops⟩ :=
    h.returns (.answer answer :: rest) (by simp [hb]) closing hjobs
  cases hafter with
  | nil => simp [hb] at hc
  | @cons _ d _ after hturn hrun =>
    obtain rfl := hturn.eq_of_run hc rfl rfl rfl
    cases hrun with
    | nil =>
      refine ⟨?_, ?_, rfl⟩
      · cases hduring with
        | nil => exact ⟨_, rfl⟩
        | cons => exact ⟨_, rfl⟩
      · intro e he
        rw [List.mem_append, List.mem_singleton] at he
        rcases he with he | rfl
        · obtain ⟨t, above, he⟩ := htops e he
          exact ⟨t :: above, he⟩
        · exact ⟨[], hc⟩
    | cons hturn' _ =>
      -- the run stops where the jobs `rest` are reached
      have hlonger := hms _ (List.mem_append_right _ (List.mem_cons_of_mem _ List.mem_cons_self))
      simp at hlonger

/-- **From any stage, the operation serializes** in the rest of the run. The induction
is on the turns that are left; those of foreign code are skipped at once. -/
theorem Run.serialized_of_stage {ms : List Machine} (h : Run a ms b) (ha : a.world.Consistent)
    (hjobs : a.jobs = t :: rest) (hstage : op.Stage v a.world asked ruled t) (hb : b.jobs = rest)
    (hms : ∀ m ∈ ms, rest.length < m.jobs.length) : Serialized op v asked ruled rest ms b := by
  induction hn : ms.length using Nat.strong_induction_on generalizing a t asked ruled ms with
  | _ n ih =>
    subst hn
    cases h with
    | nil => simp [hb] at hjobs
    | @cons _ e _ ms hturn hrun =>
      have hlonger := (List.forall_mem_cons.1 hms).2
      have hstart (hact : a.act? = none) : Underway op v rest a :=
        ⟨[], t, hjobs, ⟨_, _, _, hstage⟩, fun _ => hact⟩
      have hfault : e.fault = none := hrun.fault_of_lt hturn (by simp [hjobs, hb])
      cases hturn.advances ha hjobs hstage hfault with
      | settles closing answer hop hclosing hjobs' =>
        obtain ⟨⟨after, rfl⟩, hcertain, hanswer⟩ := hrun.answers hjobs' hb hlonger
        exact ⟨[], after, a, e, closing, answer, rfl, by simp, ⟨t, hjobs⟩,
          by simpa [questions, rulings] using hop, hjobs', hclosing, hcertain, hanswer⟩
      | goesOn u hact hop hjobs' =>
        -- no foreign code came in between
        obtain ⟨-, after, rfl, -⟩ := hrun.inv_of_lt (by simp [hjobs', hb])
        have hrest := ih _ (by simp) hrun (hturn.consistent ha) hjobs' hop hlonger rfl
        exact .of_turn (u := u) hjobs (.nil e) (by simp) hrest (by simpa using hstart hact)
      | calls above u hact hop hjobs' =>
        -- `c` is where the foreign code is done and the operation goes on
        obtain ⟨during, c, after, rfl, hduring, hafter, hc, htops⟩ :=
          hrun.returns (u :: rest) (by simp [hb]) above hjobs'
        obtain ⟨-, after, rfl, -⟩ := hafter.inv_of_lt (by simp [hc, hb])
        have hconsistent : c.world.Consistent :=
          (hduring.preserves_consistent (hturn.consistent ha)).1
        have hrest := ih _ (by simp +arith) hafter hconsistent hc (hop c.world)
          (fun m hm => hlonger m (List.mem_append_right _ hm)) rfl
        refine hrest.of_turn hjobs hduring htops (List.forall_mem_cons.2 ⟨hstart hact, ?_⟩)
        intro d hd
        obtain ⟨t', above', hd⟩ := htops d hd
        exact ⟨t' :: above', u, hd, ⟨c.world, _, _, hop c.world⟩, by simp⟩

/-- **Operations serialize**, whatever foreign code does in the middle of them. The
history of atomic operations explains the contents of every registry and every
reply: performed in a row, with no foreign code, the operations lead to the same.
And every operation, also one that a hook performs while another one is under way,
is one of these, if it has an action to take at all. A retaining step is the removal
of the entries that it rejected. -/
theorem operations_serialize {objects : List ForeignObject} {steps : List Step}
    {ms : List Machine} {m : Machine} (h : Run (session objects steps) ms m) :
    Roster.replay (fun _ => .empty) ((history ms).map fun x => (x.registry, x.action)) =
        ((history ms).map Act.reply, m.world.rosters) ∧
      ∀ (op : RegistryOp) (rest : List Job) (during : List Machine) (c : Machine),
        m.jobs = .perform (.op (.registry op)) :: rest → Run m during c → c.jobs = rest →
        (∀ e ∈ during, rest.length < e.jobs.length) →
        Serialized op m.world [] [] rest during c := by
  have hempty : (session objects steps).world.rosters = fun _ => .empty := by
    funext s
    exact congrArg Registry.slots (Bank.read_empty s)
  refine ⟨?_, fun op rest during c hjobs hrun hc hduring => ?_⟩
  · rw [← hempty]
    exact h.replay_history (World.consistent_init objects)
  · exact hrun.serialized_of_stage h.consistent.1 hjobs ⟨rfl, rfl, rfl, rfl⟩ hc hduring

/-- The first object registers itself when it is hashed. The second one removes
itself. -/
def contest : Program :=
  ⟨[⟨some [.op (.registry (.insert 0 (.fresh (some 0)) none))], none⟩,
    ⟨some [.op (.registry (.remove 0 (.fresh (some 1)) none))], none⟩]⟩

/-- Registers both objects, and removes the second one. -/
def contestSteps : List Step :=
  [.op (.registry (.insert 0 (.fresh (some 0)) none)),
    .op (.registry (.insert 0 (.fresh (some 1)) none)),
    .op (.registry (.remove 0 (.fresh (some 1)) none))]

/-- Registers both objects and retains the first one, by its hash. -/
def thresholdSteps : List Step :=
  [.op (.registry (.insert 0 (.fresh (some 0)) none)),
    .op (.registry (.insert 0 (.fresh (some 1)) none)),
    .op (.registry (.retain 0 (.hashBelow 0x2000)))]

/-- The machine that is about to retain the first object. -/
def threshold : Machine := (session meetingObjects thresholdSteps).turns still 8

/-- The insertion inside the insertion of the first object succeeds, and the outer one
is refused. The removal inside the last step takes out the second object, and the step
finds nothing. Without foreign code, a retaining step is the removal of the one entry that
it rejects. -/
theorem operations_serialize_in_contest :
    (history (visited contest 35 (session meetingObjects contestSteps))).map Act.reply =
      [.id (some ⟨1, 1⟩), .id none, .key none, .id (some ⟨2, 1⟩), .key (some ⟨some 1, 0x2000⟩),
        .key none] ∧
    Roster.replay (fun _ => .empty)
        ((history (visited contest 35 (session meetingObjects contestSteps))).map fun x =>
          (x.registry, x.action)) =
      ((history (visited contest 35 (session meetingObjects contestSteps))).map Act.reply,
        ((session meetingObjects contestSteps).turns contest 35).world.rosters) ∧
    Serialized (.remove 0 (.fresh (some 1)) none)
      ((session meetingObjects contestSteps).turns contest 22).world [] [] []
      (visited contest 13 ((session meetingObjects contestSteps).turns contest 22))
      (((session meetingObjects contestSteps).turns contest 22).turns contest 13) ∧
    Serialized (.retain 0 (.hashBelow 0x2000)) threshold.world [] [] [] (visited still 10 threshold)
      (threshold.turns still 10) ∧
    (history (visited still 10 threshold)).map Act.action = [.strike [⟨2, 1⟩]] :=
  ⟨by decide +kernel,
    (operations_serialize (run_visited contest 35 (session meetingObjects contestSteps))).1,
    (operations_serialize (run_visited contest 22 (session meetingObjects contestSteps))).2 _ []
      _ _ rfl (run_visited contest 13 _) rfl (by decide +kernel),
    (operations_serialize (run_visited still 8 (session meetingObjects thresholdSteps))).2 _ []
      _ _ rfl (run_visited still 10 _) rfl (by decide +kernel),
    by decide +kernel⟩

end Machine

end ListenerRegistry
