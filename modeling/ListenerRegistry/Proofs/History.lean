import ListenerRegistry.Proofs.Consistency

/-!
# The history of a run

A turn performs at most one atomic operation on a registry. The operations that
the turns of a run perform, in this order, make up its history. Performed on
rosters one after the other, with nothing in between, they get the same replies
and lead to the same contents (`Run.replay_history`).
-/

namespace ListenerRegistry

/-- An atomic operation on a registry, and the reply that it got. -/
structure Act where
  registry : Nat
  action : Action
  reply : Reply
deriving DecidableEq, Repr

/-- The contents of the registries. -/
def World.rosters (w : World) (s : Nat) : Roster := (w.registry s).slots

/-- A flat run: performs actions on rosters one after the other. -/
def Roster.replay (f : Nat → Roster) : List (Nat × Action) → List Reply × (Nat → Roster)
  | [] => ([], f)
  | (s, a) :: rest =>
      let (reply, m) := apply (f s) a
      let (replies, f) := replay (fun s' => if s' = s then m else f s') rest
      (reply :: replies, f)

namespace Machine

/-- The atomic operation that the next turn performs, if it performs one. -/
def act? (m : Machine) : Option Act :=
  match m.jobs with
  | [] => none
  | t :: _ =>
      match t.action? m.world with
      | none => none
      | some (s, a) =>
          match (m.world.registry s).perform a with
          | .ok (reply, _) => some ⟨s, a, reply⟩
          | .error _ => none

/-- The atomic operations of the turns that start at the given machines. -/
def history (ms : List Machine) : List Act := ms.filterMap act?

variable {a b : Machine} {t : Job} {rest : List Job}

theorem act?_of_action {s : Nat} {action : Action} (ha : a.world.Consistent)
    (hjobs : a.jobs = t :: rest) (hact : t.action? a.world = some (s, action)) :
    a.act? = some ⟨s, action, (Roster.apply (a.world.rosters s) action).1⟩ := by
  obtain ⟨r, hp, -⟩ := Registry.perform_eq (ha s) action
  simp only [act?, hjobs, hact, hp]
  rfl

theorem act?_of_no_action (hjobs : a.jobs = t :: rest) (hact : t.action? a.world = none) :
    a.act? = none := by
  simp only [act?, hjobs, hact]

/-- Where no atomic operation comes next, the job that is carried out has no action either. -/
theorem action?_of_variant (ha : a.world.Consistent) (hjobs : a.jobs = t :: rest)
    (hx : a.act? = none) {t' : Job} (ht : t.Variant t') : t'.action? a.world = none := by
  rcases ht with rfl | ⟨s, rule, hpending, rfl, rfl⟩
  · cases hact : t'.action? a.world with
    | none => rfl
    | some sa =>
      rw [act?_of_action ha hjobs hact] at hx
      cases hx
  · -- a predicate that is consulted has slots left to visit
    simp [Job.action?, hpending]

/-- **An atomic operation does to the contents what it does to rosters**, and its
reply is the reply that the roster gives. -/
theorem Turn.rosters_of_act (h : Turn a b) (ha : a.world.Consistent) {x : Act}
    (hx : a.act? = some x) :
    x.reply = (Roster.apply (a.world.rosters x.registry) x.action).1 ∧
      b.world.rosters = fun s => if s = x.registry then
        (Roster.apply (a.world.rosters x.registry) x.action).2 else a.world.rosters s := by
  obtain ⟨w, t, rest, rfl, -⟩ := h.inv
  cases hact : t.action? w with
  | none =>
    rw [act?_of_no_action rfl hact] at hx
    cases hx
  | some sa =>
    obtain ⟨s, action⟩ := sa
    rw [act?_of_action ha rfl hact] at hx
    cases hx
    obtain ⟨out, r, -, hslots, htakes, rfl⟩ := h.takes ha rfl hact
    refine ⟨rfl, funext fun s' => ?_⟩
    by_cases hs : s' = s
    · rw [if_pos hs, hs, World.rosters, htakes.acted, hslots]
      rfl
    · rw [if_neg hs, World.rosters, htakes.others s' hs]
      rfl

/-- A turn without an atomic operation leaves the contents alone. -/
theorem Turn.rosters_of_none (h : Turn a b) (ha : a.world.Consistent) (hx : a.act? = none) :
    b.world.rosters = a.world.rosters := by
  obtain ⟨w, t, rest, rfl, ⟨f, -, rfl⟩ | ⟨t', out, w', above, ht', hrun, hw', -, rfl⟩⟩ := h.inv
  · rfl
  have hnone : t'.action? w = none := action?_of_variant ha rfl hx ht'
  have hsame := Job.registry_run hnone hrun
  funext s
  rcases hw' with rfl | ⟨hook, -, rfl⟩
  · rw [World.rosters, hsame]
    rfl
  · rw [World.rosters, World.registry_emit, hsame]
    rfl

/-- **The history explains the run**: performed one after the other, its operations
get the same replies and lead to the same contents. -/
theorem Run.replay_history {ms : List Machine} (h : Run a ms b) (ha : a.world.Consistent) :
    Roster.replay a.world.rosters ((history ms).map fun x => (x.registry, x.action)) =
      ((history ms).map Act.reply, b.world.rosters) := by
  induction h with
  | nil => rfl
  | @cons a b c ms hturn _ ih =>
    have hrest := ih (hturn.consistent ha)
    cases hx : a.act? with
    | none =>
      rw [history, List.filterMap_cons_none hx, ← hturn.rosters_of_none ha hx]
      exact hrest
    | some x =>
      obtain ⟨hreply, hrosters⟩ := hturn.rosters_of_act ha hx
      rw [hrosters] at hrest
      rw [history, List.filterMap_cons_some hx]
      simp only [List.map_cons, Roster.replay, ← hreply]
      exact congrArg (fun p => (x.reply :: p.1, p.2)) hrest

end Machine

end ListenerRegistry
