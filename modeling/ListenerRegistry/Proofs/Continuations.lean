import ListenerRegistry.Proofs.Exactness

/-!
# What comes after a failure

A client asks for one operation after the other, and what it asks for next may depend on
the answers so far. Between its operations the machine may do anything that leaves the
registry alone. Since an operation that came to nothing leaves its registry as it was,
such a client cannot tell whether the operation was performed at all.
-/

namespace ListenerRegistry

/-! ## Clients -/

/-- An operation on a registry, what it asked of the registry, and its answer. -/
structure Exchange where
  op : RegistryOp
  request : Except Answer Action
  answer : Answer

/-- Decides by the answers so far, the first one first, what to ask for next: an operation
and its request, which says what hash the object gave. -/
abbrev Client := List Answer → RegistryOp × Except Answer Action

/-- The exchanges are those of the client. -/
def Client.Leads (client : Client) : List Exchange → Prop
  | [] => True
  | x :: l => (x.op, x.request) = client [] ∧ Leads (fun answers => client (x.answer :: answers)) l

/-- The registry `r` answers as in the exchanges, and becomes `r'`. -/
def Registry.Converses (r : Registry) : List Exchange → Registry → Prop
  | [], r' => r' = r
  | x :: l, r' => ∃ r₁, r.serve x.op x.request = .ok (x.answer, r₁) ∧ r₁.Converses l r'

/-- **A registry gives a client the same answers each time.** -/
theorem Registry.Converses.unique {client : Client} {l l' : List Exchange} {r r₁ r₂ : Registry}
    (h : r.Converses l r₁) (h' : r.Converses l' r₂) (hl : client.Leads l) (hl' : client.Leads l')
    (hlength : l.length = l'.length) : l = l' ∧ r₁ = r₂ := by
  induction l generalizing client l' r with
  | nil =>
    obtain rfl := List.eq_nil_of_length_eq_zero hlength.symm
    have h₁ : r₁ = r := h
    have h₂ : r₂ = r := h'
    exact ⟨rfl, h₁.trans h₂.symm⟩
  | cons x l ih =>
    rcases l' with _ | ⟨x', l'⟩
    · cases hlength
    · obtain ⟨op, request, answer⟩ := x
      obtain ⟨op', request', answer'⟩ := x'
      obtain ⟨hx, hl⟩ := hl
      obtain ⟨hx', hl'⟩ := hl'
      obtain ⟨rfl, rfl⟩ := Prod.mk.inj (hx.trans hx'.symm)
      obtain ⟨s, hserve, h⟩ := h
      obtain ⟨s', hserve', h'⟩ := h'
      obtain ⟨rfl, rfl⟩ := Prod.mk.inj (Except.ok.inj (hserve.symm.trans hserve'))
      obtain ⟨rfl, hsame⟩ := ih h h' hl hl' (Nat.succ.inj hlength)
      exact ⟨rfl, hsame⟩

/-! ## Series of operations -/

namespace Machine

/-- The registries are sound, their entries are on objects, and so is everything that waits
to be stored. -/
structure Orderly (m : Machine) : Prop where
  consistent : m.world.Consistent
  peopled : m.world.Peopled
  proper : m.Proper

variable {objects : List ForeignObject} {steps : List Step} {a b c m : Machine}
  {ms : List Machine} {s : Nat} {l : List Exchange}

theorem orderly_session (objects : List ForeignObject) (steps : List Step) :
    (session objects steps).Orderly where
  consistent := World.consistent_init objects
  peopled := World.peopled_init objects
  proper := proper_session objects steps

theorem Turn.orderly (h : Turn a b) (ha : a.Orderly) : b.Orderly where
  consistent := h.consistent ha.consistent
  peopled := h.peopled ha.consistent ha.proper ha.peopled
  proper := h.proper ha.consistent ha.proper

theorem Run.orderly (h : Run a ms b) (ha : a.Orderly) : b.Orderly :=
  (h.preserves (fun _ _ hx hturn => hturn.orderly hx) ha).1

/-- From `a` to `b`, some operations on the registry `s` are performed. Their foreign code
leaves the registry alone, and so does what is done in between. -/
inductive Series (s : Nat) : Machine → List Exchange → Machine → Prop where
  | nil (m : Machine) : Series s m [] m
  | idle {a b c : Machine} {l : List Exchange} (hturn : Turn a b) (ha : a.Preserves s)
      (hrest : Series s b l c) : Series s a l c
  | serve {c : Machine} {l : List Exchange} (p : Performance) (hp : p.Complete)
      (hs : p.op.registry? = some s) (hcalm : p.Undisturbed s) (hrest : Series s p.last l c) :
      Series s p.first (⟨p.op, p.request, p.answer⟩ :: l) c

/-- **The answers in a series are those of the registry.** -/
theorem Series.converses (h : Series s a l b) (ha : a.Orderly) :
    (a.world.registry s).Converses l (b.world.registry s) := by
  induction h with
  | nil => rfl
  | idle hturn hpreserves _ ih =>
    rw [← hturn.registry_of_preserves hpreserves]
    exact ih (hturn.orderly ha)
  | serve p hp hs hcalm _ ih =>
    exact ⟨_, hp.serves ha.consistent ha.peopled hs hcalm, ih (hp.run.orderly ha)⟩

end Machine

namespace Performance

open Machine

/-- The machine that the operation is left out of. -/
def skipped (p : Performance) : Machine := ⟨p.first.world, p.rest, none⟩

variable {p : Performance} {s : Nat}

theorem Complete.orderly_skipped (hp : p.Complete) (h : p.first.Orderly) : p.skipped.Orderly where
  consistent := h.consistent
  peopled := h.peopled
  proper u hu := h.proper u (hp.begins ▸ List.mem_cons_of_mem _ hu)

/-- An operation that comes to nothing leaves its registry as it was. -/
theorem Complete.registry_of_void (hp : p.Complete) (h : p.first.Orderly)
    (hs : p.op.registry? = some s) (hcalm : p.Undisturbed s) (hvoid : p.answer.void = true) :
    p.last.world.registry s = p.first.world.registry s :=
  Registry.eq_of_void (h.consistent s) (h.peopled s)
    (hp.serves h.consistent h.peopled hs hcalm) hvoid

end Performance

/-! ## Whole runs -/

namespace Machine

variable {objects : List ForeignObject} {steps : List Step} {m : Machine} {ms : List Machine}
  {s : Nat}

/-- **Errors are exact, and failures leave no trace.** Suppose that an operation is performed
and that the foreign code it calls leaves its registry alone. Then it fails for the reasons
that it gives and for no others. A handle that it refuses is released, once. If it fails or
finds nothing, its registry is what it was, and a client that goes on to work with it gets
the same answers and the same ids as it would have got without the operation. -/
theorem failures_exact_and_traceless (h : Run (session objects steps) ms m) {p : Performance}
    (hfirst : p.first = m) (hp : p.Complete) (hs : p.op.registry? = some s)
    (hcalm : p.Undisturbed s) :
    p.Exact s ∧ p.Returns ∧
      (p.answer.void = true → p.last.world.registry s = m.world.registry s ∧
        ∀ (client : Client) l l' c c', Series s p.last l c → Series s p.skipped l' c' →
          client.Leads l → client.Leads l' → l.length = l'.length →
            l = l' ∧ c.world.registry s = c'.world.registry s) := by
  subst hfirst
  have horderly : p.first.Orderly := h.orderly (orderly_session objects steps)
  refine ⟨hp.exact horderly.consistent horderly.peopled hs hcalm, hp.returns horderly.consistent,
    fun hvoid => ?_⟩
  have hsame : p.last.world.registry s = p.first.world.registry s :=
    hp.registry_of_void horderly hs hcalm hvoid
  refine ⟨hsame, fun client l l' c c' hl hl' hleads hleads' hlength => ?_⟩
  have hwith := hl.converses (hp.run.orderly horderly)
  have hwithout := hl'.converses (hp.orderly_skipped horderly)
  rw [hsame] at hwith
  exact hwith.unique hwithout hleads hleads' hlength

/-- Three objects that hash by their addresses. -/
def relistObjects : List ForeignObject :=
  [.plain 0x1000 1 (.always .identity), .plain 0x2000 1 (.always .identity),
    .plain 0x3000 1 (.always .identity)]

/-- When it is hashed, the first object registers the third one, but in another registry. -/
def bystander : Program :=
  ⟨[⟨some [.op (.registry (.insert 1 (.fresh (some 2)) none))], none⟩]⟩

/-- Registers the first object twice, and then the second one. -/
def relistSteps : List Step :=
  [.op (.registry (.insert 0 (.fresh (some 0)) none)),
    .op (.registry (.insert 0 (.fresh (some 0)) none)),
    .op (.registry (.insert 0 (.fresh (some 1)) none))]

/-- The machine that is about to register the first object again. -/
def relisting : Machine := (session relistObjects relistSteps).turns bystander 10

/-- How it does so. -/
def relist : Performance :=
  ⟨.insert 0 (.fresh (some 0)) none, [.perform (.op (.registry (.insert 0 (.fresh (some 1)) none)))],
    relisting, visited bystander 12 relisting, relisting.turns bystander 12⟩

/-- How the second object is registered. -/
def listing (m : Machine) : Performance :=
  ⟨.insert 0 (.fresh (some 1)) none, [], m, visited bystander 4 m, m.turns bystander 4⟩

/-- The first object is refused as a duplicate and released, once. The second one gets the
id that it would have got otherwise. -/
theorem failures_exact_and_traceless_in_relisting :
    (∃ outcome, relist.hashings = [⟨0, outcome, some 0⟩] ∧
      Stores (relisting.world.registry 0).entries (some 0) outcome relist.answer) ∧
    relist.answer = .failed .duplicateListener ∧
    releases relist.rest relist.during = [some 0] ∧
    (listing relist.last).answer = .located (some ⟨2, 1⟩) ∧
    (listing relist.last).answer = (listing relist.skipped).answer := by
  have hrun : Run (session relistObjects relistSteps) _ relisting := run_visited bystander 10 _
  obtain ⟨hexact, hreturns, htraceless⟩ := failures_exact_and_traceless (s := 0) (p := relist) hrun rfl
    ⟨rfl, run_visited bystander 12 relisting, rfl, by decide +kernel⟩ rfl (by decide +kernel)
  obtain ⟨-, hcontinues⟩ := htraceless rfl
  refine ⟨hexact (by decide +kernel), rfl, hreturns _ rfl, rfl, ?_⟩
  have hwith : Series 0 relist.last _ _ :=
    .serve (listing relist.last) ⟨rfl, run_visited bystander 4 relist.last, rfl, by decide +kernel⟩
      rfl (by decide +kernel) (.nil _)
  have hwithout : Series 0 relist.skipped _ _ :=
    .serve (listing relist.skipped)
      ⟨rfl, run_visited bystander 4 relist.skipped, rfl, by decide +kernel⟩ rfl (by decide +kernel)
      (.nil _)
  obtain ⟨hsame, -⟩ := hcontinues
    (fun _ => ⟨.insert 0 (.fresh (some 1)) none, .ok (.insert ⟨some 1, 0x2000⟩)⟩)
    _ _ _ _ hwith hwithout ⟨rfl, trivial⟩ ⟨rfl, trivial⟩ rfl
  obtain ⟨hfirst, -⟩ := List.cons.inj hsame
  exact congrArg Exchange.answer hfirst

end Machine

end ListenerRegistry
