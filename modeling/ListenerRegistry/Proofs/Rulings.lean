import ListenerRegistry.Proofs.History

/-!
# What retaining steps ask and decide

A retaining step visits one slot after the other. It asks about the entry that it
finds there, and decides about it, by a rule, by a predicate that foreign code
computes, or by a hash. Both the questions and the decisions can be read off the
turns, whatever the step makes of them and whatever foreign code does in between.
-/

namespace ListenerRegistry

/-- A decision about an entry is found among others by comparing ids and verdicts. -/
instance : LawfulBEq (ListenerId × Bool) := inferInstance

/-! ## One visit -/

/-- The entry that a retaining step asks about when it visits its next slot. -/
def Screening.question? (w : World) (sc : Screening) : Option ListenerId :=
  sc.pending.head?.bind fun i => ((w.registry sc.registry).entryAt? i).map (·.1)

/-- What a job of a retaining step decides if the next job of the step is the second
one, and about which entry. The rule that a visit goes by is found in the next visit:
if a predicate was consulted, this is what the predicate said. Where a visit follows at
once on a request for a hash, the entry was gone, and null hashes to zero. -/
def Job.rules? (w : World) : Job → Job → Option (ListenerId × Bool)
  | screen sc, screen next =>
      match next.keep, sc.pending.head?.bind (w.registry sc.registry).entryAt? with
      | .rule rule, some (id, k) => some (id, RegistryOp.verdict w next.asked k.handle rule)
      | _, _ => none
  | ask (.screen bound id _), screen _ => some (id, HashOutcome.isBelow bound (.ok 0))
  | hashed o (.screen bound id _), _ => some (id, (w.hashOutcome o).isBelow bound)
  | _, _ => none

/-- What a visit decides does not depend on the rule that the step brought along. -/
theorem Job.rules?_keep (w : World) (sc : Screening) (keep : Keep) (u : Job) :
    (screen { sc with keep }).rules? w u = (screen sc).rules? w u := by
  cases u <;> rfl

section

variable {sc : Screening} {i : Nat} {pending : List Nat}

theorem Screening.question?_of_pending (w : World) (h : sc.pending = i :: pending) :
    sc.question? w = ((w.registry sc.registry).entryAt? i).map (·.1) := by
  rw [question?, h]
  rfl

/-- A slot that is empty is passed over. -/
theorem Job.rules?_of_vacant {w : World} (h : sc.pending = i :: pending)
    (hentry : (w.registry sc.registry).entryAt? i = none) (next : Screening) :
    (screen sc).rules? w (screen next) = none := by
  cases hkeep : next.keep <;> simp [rules?, h, hentry, hkeep]

end

/-- What a retaining step leaves to do when it visits the slot `i`, with the slots
`pending` still ahead. -/
inductive Screening.Visits (w : World) (sc : Screening) (i : Nat) (pending : List Nat) :
    List Job → Prop where
  | passes (hentry : (w.registry sc.registry).entryAt? i = none) :
      Visits w sc i pending [.screen { sc with pending }]
  | asks {id : ListenerId} {k : Key} {bound : UInt64}
      (hentry : (w.registry sc.registry).entryAt? i = some (id, k))
      (hkeep : sc.keep = .hashBelow bound) :
      Visits w sc i pending
        [.ask (.screen bound id { sc with pending, asked := sc.asked + 1 })]
  | decides {id : ListenerId} {k : Key} {rule : KeepRule}
      (hentry : (w.registry sc.registry).entryAt? i = some (id, k)) (hkeep : sc.keep = .rule rule) :
      Visits w sc i pending [.screen
        (Screening.judge { sc with pending, asked := sc.asked + 1 } id
          (RegistryOp.verdict w (sc.asked + 1) k.handle rule))]

/-- What a rule says of an entry does not depend on the trace. -/
theorem RegistryOp.verdict_keep (w : World) (n : Nat) (h h' : Handle) (rule : KeepRule) :
    verdict (h.elim w fun o => w.emit (.keep o)) n h' rule = verdict w n h' rule := by
  cases h <;> rfl

/-- A step with slots left to visit visits the first of them. -/
theorem RegistryOp.visits_of_screen {w : World} {sc : Screening} {out : Outcome} {i : Nat}
    {pending : List Nat} (hpending : sc.pending = i :: pending) (h : screen w sc = .ok out) :
    sc.Visits w i pending out.jobs := by
  simp only [screen, hpending] at h
  cases hentry : (w.registry sc.registry).entryAt? i with
  | none =>
    simp only [hentry] at h
    cases h
    exact .passes hentry
  | some e =>
    obtain ⟨id, k⟩ := e
    simp only [hentry] at h
    split at h
    · cases h
    · split at h
      · rename_i bound hkeep
        cases h
        exact .asks hentry hkeep
      · rename_i rule hkeep
        cases h
        rw [verdict_keep]
        exact .decides hentry hkeep

namespace Machine

/-! ## Questions and rulings -/

/-- The entry that a retaining step asks about in the next turn. -/
def question? (m : Machine) : Option ListenerId :=
  match m.jobs with
  | .screen sc :: _ => sc.question? m.world
  | _ => none

/-- The entries that the retaining step above the jobs `rest` asks about. -/
def questions (rest : List Job) (ms : List Machine) : List ListenerId :=
  ms.filterMap fun m => if m.jobs.length = rest.length + 1 then m.question? else none

/-- What the retaining step above the jobs `rest` decides in the turn from `a` to `b`,
and about which entry. -/
def ruling? (rest : List Job) (a b : Machine) : Option (ListenerId × Bool) :=
  match a.jobs, b.jobs.reverse[rest.length]? with
  | t :: js, some u => if js.length = rest.length then t.rules? a.world u else none
  | _, _ => none

/-- The decisions of the retaining step above the jobs `rest`, in order. -/
def rulings (rest : List Job) : List Machine → List (ListenerId × Bool)
  | a :: b :: ms => (ruling? rest a b).toList ++ rulings rest (b :: ms)
  | _ => []

/-- The entries that were decided against. -/
def rejected (ruled : List (ListenerId × Bool)) : List ListenerId :=
  (ruled.filter fun x => !x.2).map (·.1)

@[simp] theorem rejected_append (ruled ruled' : List (ListenerId × Bool)) :
    rejected (ruled ++ ruled') = rejected ruled ++ rejected ruled' := by
  simp [rejected]

theorem rejected_judge (sc : Screening) (id : ListenerId) (keep : Bool) :
    (sc.judge id keep).doomed.reverse = sc.doomed.reverse ++ rejected [(id, keep)] := by
  cases keep <;> simp [Screening.judge, rejected]

variable {a b : Machine} {t : Job} {rest : List Job}

theorem questions_append (rest : List Job) (ms ns : List Machine) :
    questions rest (ms ++ ns) = questions rest ms ++ questions rest ns :=
  List.filterMap_append

/-- While foreign code is at work, the operation asks no questions. -/
theorem questions_cons {during : List Machine} {u : Job} (hjobs : a.jobs = t :: rest)
    (hduring : ∀ d ∈ during, ∃ t above, d.jobs = t :: above ++ u :: rest) :
    questions rest (a :: during) = a.question?.toList := by
  have hnone : questions rest during = [] := by
    refine List.filterMap_eq_nil_iff.2 fun d hd => ?_
    obtain ⟨t, above, hd⟩ := hduring d hd
    exact if_neg (by simp [hd]; omega)
  have hown : a.jobs.length = rest.length + 1 := by simp [hjobs]
  rw [questions] at hnone ⊢
  cases hasked : a.question? with
  | none => rw [List.filterMap_cons_none (by simp [hasked]), hnone]; rfl
  | some id => rw [List.filterMap_cons_some (by rw [if_pos hown, hasked]), hnone]; rfl

/-- The job right above the jobs `rest`. -/
theorem getElem?_reverse_above (above : List Job) (u : Job) (rest : List Job) :
    (above ++ u :: rest).reverse[rest.length]? = some u := by
  rw [List.reverse_append, List.reverse_cons, List.append_assoc,
    List.getElem?_append_right (by simp)]
  simp

/-- Foreign code above the step decides nothing. -/
theorem ruling?_of_length_ne (h : a.jobs.length ≠ rest.length + 1) : ruling? rest a b = none := by
  unfold ruling?
  split
  · rename_i t js _ hjobs _
    rw [if_neg]
    intro hlength
    rw [hjobs] at h
    exact h (congrArg (· + 1) hlength)
  · rfl

theorem ruling?_of_jobs {above : List Job} {u : Job} (ha : a.jobs = t :: rest)
    (hb : b.jobs = above ++ u :: rest) : ruling? rest a b = t.rules? a.world u := by
  unfold ruling?
  rw [ha, hb, getElem?_reverse_above]
  exact if_pos rfl

/-- A job that decides nothing, whatever comes next. -/
theorem ruling?_of_rules? (h : a.jobs = t :: rest) (ht : ∀ u, t.rules? a.world u = none)
    (b : Machine) : ruling? rest a b = none := by
  unfold ruling?
  split
  · rename_i t' js u hjobs hu
    obtain ⟨rfl, rfl⟩ := List.cons.inj (hjobs.symm.trans h)
    rw [if_pos rfl, ht]
  · rfl

/-- A job that acts on a registry decides nothing. If it belongs to a retaining step, there
is nothing left to visit. -/
theorem ruling?_of_action {x : Nat × Action} (h : a.jobs = t :: rest)
    (hact : t.action? a.world = some x) (b : Machine) : ruling? rest a b = none := by
  refine ruling?_of_rules? h (fun u => ?_) b
  cases t with
  | screen sc =>
    have hpending : sc.pending = [] := by
      by_contra hne
      simp [Job.action?, hne] at hact
    cases u with
    | screen next => cases hkeep : next.keep <;> simp [Job.rules?, hpending, hkeep]
    | _ => rfl
  | ask use =>
    cases use with
    | screen => simp [Job.action?, HashUse.action?] at hact
    | _ => rfl
  | hashed o use =>
    cases use with
    | screen => cases hout : a.world.hashOutcome o <;> simp [Job.action?, HashUse.action?, hout] at hact
    | _ => rfl
  | _ => rfl

/-- Where only the answer is left, the step asks nothing. -/
theorem questions_of_answer {ms : List Machine}
    (h : ∀ x ∈ ms, ∃ above answer, x.jobs = above ++ .answer answer :: rest) :
    questions rest ms = [] := by
  refine List.filterMap_eq_nil_iff.2 fun x hx => ?_
  obtain ⟨above, answer, hjobs⟩ := h x hx
  cases above with
  | nil => simp [question?, hjobs]
  | cons t above => exact if_neg (by simp [hjobs]; omega)

/-- Where only the answer is left, the step decides nothing. -/
theorem ruling?_of_answer {above : List Job} {answer : Answer}
    (h : a.jobs = above ++ .answer answer :: rest) (b : Machine) : ruling? rest a b = none := by
  cases above with
  | nil => exact ruling?_of_rules? h (fun _ => rfl) b
  | cons t above =>
    refine ruling?_of_length_ne ?_
    simp [h]
    omega

/-- Turns that decide nothing, up to a machine `c`. -/
theorem rulings_eq_nil {ms : List Machine} (h : ∀ x ∈ ms, ∀ y, ruling? rest x y = none)
    (c : Machine) : rulings rest (ms ++ [c]) = [] := by
  induction ms with
  | nil => rfl
  | cons d ms ih =>
    obtain ⟨hd, hms⟩ := List.forall_mem_cons.1 h
    obtain ⟨e, tail, he⟩ := List.exists_cons_of_ne_nil (show ms ++ [c] ≠ [] by simp)
    rw [List.cons_append, he, rulings, hd e, ← he, ih hms]
    rfl

/-- What is decided on the way to a machine, and what is decided from there on. -/
theorem rulings_append (rest : List Job) (ms : List Machine) (c : Machine) (tail : List Machine) :
    rulings rest (ms ++ c :: tail) = rulings rest (ms ++ [c]) ++ rulings rest (c :: tail) := by
  induction ms with
  | nil => rfl
  | cons d ms ih =>
    cases ms with
    | nil => simp [rulings]
    | cons e ms =>
      simp only [List.cons_append, rulings] at ih ⊢
      rw [ih, List.append_assoc]

/-- A turn of the step decides as much as it does, and foreign code after it nothing. -/
theorem rulings_cons {during : List Machine} {c : Machine} {u : Job} (hrun : Run b during c)
    (hduring : ∀ d ∈ during, ∃ t above, d.jobs = t :: above ++ u :: rest) :
    rulings rest (a :: (during ++ [c])) = (ruling? rest a b).toList := by
  have hforeign : ∀ x ∈ during, ∀ y, ruling? rest x y = none := by
    intro x hx y
    obtain ⟨t, above, hx⟩ := hduring x hx
    refine ruling?_of_length_ne ?_
    simp [hx]
    omega
  cases hrun with
  | nil => simp [rulings]
  | @cons _ _ _ during hturn hrun =>
    show (ruling? rest a b).toList ++ rulings rest (b :: during ++ [c]) = _
    rw [rulings_eq_nil hforeign c, List.append_nil]

end Machine

end ListenerRegistry
