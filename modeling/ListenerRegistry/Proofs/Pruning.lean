import ListenerRegistry.Proofs.Closing
import ListenerRegistry.Proofs.Refinement

/-!
# Retaining from end to end

A retaining step asks about the entries of its registry one after the other, unlinks in one
turn the entries that it decided against, and releases them only then. Foreign code that is
called while it decides must leave the registry alone. Finalizers that are called when it
releases may do to the registry what they like: nothing of the step is left to be done then
but to release the other handles and to answer.
-/

namespace ListenerRegistry

/-! ## Taking out several entries -/

namespace Roster

variable {m : Roster}

theorem entries_take (m : Roster) (id : ListenerId) :
    (take m id).2.entries = m.entries.filter fun e => e.1 ≠ id := by
  cases hm : m.remove id with
  | none =>
    rw [take_of_stale hm, eq_comm, List.filter_eq_self]
    rintro ⟨i, k⟩ he
    have hget := SlotTable.mem_entries.1 he
    have hstale := SlotTable.remove_eq_none_iff.1 hm
    simp only [ne_eq, decide_eq_true_eq]
    rintro rfl
    rw [hstale] at hget
    cases hget
  | some found =>
    obtain ⟨k, m'⟩ := found
    obtain ⟨before, after, he, he'⟩ := SlotTable.entries_of_remove hm
    have hnodup := m.nodup_ids
    rw [he, List.map_append, List.map_cons, List.nodup_middle, List.nodup_cons,
      ← List.map_append] at hnodup
    have hothers : (before ++ after).filter (fun e => e.1 ≠ id) = before ++ after := by
      refine List.filter_eq_self.2 fun e hmem => ?_
      simp only [ne_eq, decide_eq_true_eq]
      rintro rfl
      exact hnodup.1 (List.mem_map.2 ⟨e, hmem, rfl⟩)
    rw [List.filter_append] at hothers
    rw [take_of_remove hm, he', he, List.filter_append, List.filter_cons_of_neg (by simp), hothers]

theorem entries_strike (m : Roster) (ids : List ListenerId) :
    (strike m ids).2.entries = m.entries.filter fun e => e.1 ∉ ids := by
  induction ids generalizing m with
  | nil => simp [strike]
  | cons id ids ih =>
    show (strike (take m id).2 ids).2.entries = _
    rw [ih, entries_take, List.filter_filter]
    refine List.filter_congr fun e _ => ?_
    simp [Bool.and_comm]

/-- The entries that are taken out, in the order in which they are named. -/
theorem strike_eq_filterMap {ids : List ListenerId} (hnodup : ids.Nodup) (m : Roster) :
    (strike m ids).1 = ids.filterMap fun id => (m.get? id).map fun k => (id, k) := by
  induction ids generalizing m with
  | nil => rfl
  | cons id ids ih =>
    obtain ⟨hid, hnodup⟩ := List.nodup_cons.1 hnodup
    have hrest : (strike (take m id).2 ids).1 =
        ids.filterMap fun i => (m.get? i).map fun k => (i, k) := by
      rw [ih hnodup]
      refine List.filterMap_congr fun i hi => ?_
      have hne : i ≠ id := by
        rintro rfl
        exact hid hi
      rw [get?_take, if_neg hne]
    show ((take m id).1.map fun k => (id, k)).toList ++ (strike (take m id).2 ids).1 = _
    rw [hrest, take_fst]
    cases hk : m.get? id with
    | none => rw [List.filterMap_cons_none (by rw [hk]; rfl)]; rfl
    | some k => rw [List.filterMap_cons_some (by rw [hk]; rfl)]; rfl

/-- Taking out the entries of a kind parts them from the others. -/
theorem strike_filter (m : Roster) (p : ListenerId × Key → Bool) :
    (strike m ((m.entries.filter p).map (·.1))).1 = m.entries.filter p := by
  have hnodup : ((m.entries.filter p).map (·.1)).Nodup :=
    m.nodup_ids.sublist (List.filter_sublist.map _)
  rw [strike_eq_filterMap hnodup, List.filterMap_map]
  have hself : ∀ e ∈ m.entries.filter p,
      ((fun id => (m.get? id).map fun k => (id, k)) ∘ (·.1)) e = some e := by
    intro e he
    have hget : m.get? e.1 = some e.2 := SlotTable.mem_entries.1 (List.mem_of_mem_filter he)
    simp only [Function.comp_apply, hget, Option.map_some]
  rw [List.filterMap_congr hself, List.filterMap_some]

end Roster

/-! ## What was decided -/

namespace Machine

section

variable {ruled : List (ListenerId × Bool)} {es : List (ListenerId × Key)}

/-- Where nothing is decided twice, a decision is not both for and against an entry. -/
theorem ruled_unique (hnodup : (ruled.map (·.1)).Nodup) {id : ListenerId} {b b' : Bool}
    (h : (id, b) ∈ ruled) (h' : (id, b') ∈ ruled) : b = b' :=
  congrArg (·.2) (List.inj_on_of_nodup_map hnodup h h' rfl)

theorem rejected_eq_filter (hall : ruled.map (·.1) = es.map (·.1)) (hnodup : (es.map (·.1)).Nodup) :
    rejected ruled = (es.filter fun e => (e.1, false) ∈ ruled).map (·.1) := by
  have hruled : (ruled.map (·.1)).Nodup := hall ▸ hnodup
  have hsame : ruled.filter (fun x => !x.2) =
      ruled.filter ((fun id => decide ((id, false) ∈ ruled)) ∘ (·.1)) := by
    refine List.filter_congr fun x hx => ?_
    obtain ⟨id, b⟩ := x
    cases b with
    | false => simpa using hx
    | true =>
      have hnot : (id, false) ∉ ruled := fun h => Bool.noConfusion (ruled_unique hruled hx h)
      simpa using hnot
  rw [rejected, hsame, ← List.filter_map, hall, List.filter_map]
  rfl

/-- An entry that was decided about stays, or it is rejected. -/
theorem kept_iff (hall : ruled.map (·.1) = es.map (·.1)) (hnodup : (es.map (·.1)).Nodup)
    {e : ListenerId × Key} (he : e ∈ es) : e.1 ∉ rejected ruled ↔ (e.1, true) ∈ ruled := by
  have hruled : (ruled.map (·.1)).Nodup := hall ▸ hnodup
  have hmem : e.1 ∈ ruled.map (·.1) := hall ▸ List.mem_map_of_mem he
  obtain ⟨⟨id, b⟩, hx, hid⟩ := List.mem_map.1 hmem
  obtain rfl : id = e.1 := hid
  rw [Roster.mem_rejected]
  constructor
  · intro hnot
    cases b with
    | false => exact absurd hx hnot
    | true => exact hx
  · intro hkept hrejected
    exact Bool.noConfusion (ruled_unique hruled hkept hrejected)

/-- Taking out what was rejected parts the entries by the decisions about them. -/
theorem strike_rejected {r : Roster} (hall : ruled.map (·.1) = r.entries.map (·.1)) :
    (Roster.strike r (rejected ruled)).1 = r.entries.filter (fun e => (e.1, false) ∈ ruled) ∧
      (Roster.strike r (rejected ruled)).2.entries =
        r.entries.filter (fun e => (e.1, true) ∈ ruled) := by
  constructor
  · rw [rejected_eq_filter hall r.nodup_ids, Roster.strike_filter]
  · rw [Roster.entries_strike]
    refine List.filter_congr fun e he => ?_
    exact decide_eq_decide.2 (kept_iff hall r.nodup_ids he)

end

end Machine

theorem RegistryOp.jobs_prune {w : World} {sc : Screening} {out : Outcome}
    (hw : (w.registry sc.registry).Sound) (hpending : sc.pending = [])
    (h : screen w sc = .ok out) :
    out.jobs = (Roster.strike (w.rosters sc.registry) sc.doomed.reverse).1.map
        (fun x => .release x.2.handle) ++
      [.answer (.count (Roster.strike (w.rosters sc.registry) sc.doomed.reverse).1.length)] := by
  obtain ⟨r, hr, -, -⟩ := Registry.prune_eq hw sc.doomed.reverse
  simp only [screen, hpending, prune, hr, bind, Except.bind, pure, Except.pure] at h
  cases h
  rfl

/-- When there is nothing left to visit, the step unlinks what it decided against, and the
handles are released next. -/
theorem Machine.Turn.of_prune {a b : Machine} (h : Turn a b) (ha : a.world.Consistent)
    {sc : Screening} {rest : List Job} (hjobs : a.jobs = .screen sc :: rest)
    (hpending : sc.pending = []) :
    b.jobs = (Roster.strike (a.world.rosters sc.registry) sc.doomed.reverse).1.map
        (fun x => .release x.2.handle) ++
      .answer (.count (Roster.strike (a.world.rosters sc.registry) sc.doomed.reverse).1.length) ::
        rest := by
  have haction : (Job.screen sc).action? a.world =
      some (sc.registry, .strike sc.doomed.reverse) := by
    simp only [Job.action?, hpending, if_true]
  obtain ⟨out, hrun, rfl⟩ := h.run_of_action ha hjobs haction
  rw [RegistryOp.jobs_prune (ha sc.registry) hpending hrun, List.append_assoc]
  rfl

namespace Performance

open Machine

/-- The entries of the registry `s` that a retaining step decides against. -/
def dropped (p : Performance) (s : Nat) : List (ListenerId × Key) :=
  (p.first.world.registry s).entries.filter fun x => (x.1, false) ∈ p.rulings

/-- The retaining step prunes the registry `s` in the turn from `e` to `d`. -/
structure Prunes (p : Performance) (s : Nat) (before : List Machine) (e d : Machine)
    (after : List Machine) : Prop where
  place : p.TakesPlace before e d after
  /-- Every entry is asked about once, in order, and decided about once. -/
  asked : questions p.rest (before ++ [e]) = (p.first.world.registry s).entries.map (·.1)
  ruled : (Machine.rulings p.rest (before ++ [e])).map (·.1) =
    (p.first.world.registry s).entries.map (·.1)
  /-- All this is over when the first entry is unlinked. -/
  asked_all : questions p.rest p.during = questions p.rest (before ++ [e])
  ruled_all : p.rulings = Machine.rulings p.rest (before ++ [e])
  untouched : ∀ x ∈ before ++ [e], x.world.registry s = p.first.world.registry s
  /-- What is left are the entries that the step decided for, as they were. -/
  kept : (d.world.registry s).entries =
    (p.first.world.registry s).entries.filter fun x => (x.1, true) ∈ p.rulings
  /-- The others are released in order, and then comes the answer. -/
  closing : d.jobs = (p.dropped s).map (fun x => .release x.2.handle) ++ .answer p.answer :: p.rest
  released : releases p.rest (d :: after) = (p.dropped s).map (·.2.handle)
  counted : p.answer = .count (p.rulings.countP fun x => !x.2)
  /-- From then on only hooks act on registries. -/
  hooks : ∀ x ∈ d :: after, x.act? ≠ none → x.hosts p.rest = true

variable {p : Performance}

/-- A step that has decided prunes its registry next. -/
theorem Decided.prunes {s : Nat} {before after : List Machine} {e : Machine} {sc : Screening}
    (hdecided : p.Decided s before e after sc) (hp : p.Complete)
    (hw : p.first.world.Consistent) :
    ∃ d tail, after = d :: tail ∧ Turn e d ∧ p.Prunes s before e d tail := by
  obtain ⟨-, hafter⟩ := hdecided.run hp
  have hconsistent : e.world.Consistent := hdecided.consistent hp hw
  obtain ⟨d, after, rfl, hturn, hrosters, hcertain, hanswer⟩ :=
    hafter.concludes hconsistent hdecided.jobs hdecided.action? hp.ends (hdecided.within hp)
  obtain ⟨-, hrest⟩ := hafter.uncons
  have hanswers : ∀ x ∈ d :: after, ∃ above answer, x.jobs = above ++ .answer answer :: p.rest := by
    intro x hx
    obtain ⟨above, hx⟩ := hcertain x hx
    exact ⟨above, _, hx⟩
  have hrulings : p.rulings = Machine.rulings p.rest (before ++ [e]) := rulings_eq hdecided.during hdecided.jobs hdecided.action? hanswers
  have hquestions : questions p.rest p.during = questions p.rest (before ++ [e]) := by
    have hnone : questions p.rest (d :: after) = [] := questions_of_answer hanswers
    have hsplit : p.during = (before ++ [e]) ++ d :: after := by simp [hdecided.during]
    rw [hsplit, questions_append, hnone, List.append_nil]
  -- the entries are parted
  obtain ⟨hstruck, hleft⟩ := strike_rejected hdecided.ruled
  have hdropped : (Roster.strike (e.world.rosters s)
      (rejected (Machine.rulings p.rest (before ++ [e])))).1 = p.dropped s := by
    rw [hdecided.slots_eq, hstruck, dropped, hrulings]
    rfl
  have hcounted : p.answer = .count (p.dropped s).length := by
    rw [← hdropped]
    exact hanswer
  have hclosing : d.jobs = (p.dropped s).map (fun x => .release x.2.handle) ++
      .answer p.answer :: p.rest := by
    rw [hcounted, ← hdropped, ← hdecided.doomed, ← hdecided.registry]
    exact hturn.of_prune hconsistent hdecided.jobs hdecided.visited
  obtain ⟨hreleased, hhooks⟩ := hrest.releases (Job.closing_releases _ _) hclosing hp.ends
    (hdecided.within hp)
  rw [Job.released?_releases] at hreleased
  refine ⟨d, after, rfl, hturn, ⟨hdecided.during, ⟨_, hdecided.jobs⟩, hdecided.idle, ?_⟩,
    hdecided.asked, hdecided.ruled, hquestions, hrulings, hdecided.untouched, ?_, hclosing,
    hreleased, ?_, hhooks⟩
  · intro x hx hown
    obtain ⟨above, hjobs⟩ := hcertain x hx
    exact act?_of_answer hjobs hown
  · have hroster : d.world.rosters s = (Roster.strike (e.world.rosters s)
        (rejected (Machine.rulings p.rest (before ++ [e])))).2 := by
      rw [hrosters]
      exact if_pos rfl
    show (d.world.rosters s).entries = _
    rw [hroster, hdecided.slots_eq, hleft, hrulings]
    rfl
  · have hlength := congrArg List.length (rejected_eq_filter hdecided.ruled
      (p.first.world.registry s).slots.nodup_ids)
    rw [rejected, List.length_map, List.length_map, ← List.countP_eq_length_filter] at hlength
    rw [hcounted, dropped, hrulings, ← hlength]

/-- **A retaining step that is left in peace while it decides** prunes its registry. -/
theorem Complete.prunes (hp : p.Complete) {s : Nat} {keep : Keep} (hop : p.op = .retain s keep)
    (hw : p.first.world.Consistent) (hpeopled : p.first.world.Peopled)
    (hrespect : ∀ e ∈ p.during, e.Respects p.rest) :
    ∃ before e d after, Turn e d ∧ p.Prunes s before e d after := by
  obtain ⟨before, e, after, sc, hdecided⟩ := hp.decides hop hw hpeopled hrespect
  obtain ⟨d, tail, -, hturn, hprunes⟩ := hdecided.prunes hp hw
  exact ⟨before, e, d, tail, hturn, hprunes⟩

end Performance

/-! ## Nothing goes wrong -/

namespace Machine

variable {a b m : Machine} {rest : List Job} {ms : List Machine}

/-- The job right above the jobs `rest`, if there is one, is not a retaining step that has
more entries to ask about than questions left. -/
def Bounded (rest : List Job) (m : Machine) : Prop :=
  m.jobs.length ≤ rest.length ∨
    ∃ above u, m.jobs = above ++ u :: rest ∧ ∀ sc ∈ u.screening?, sc.Fits m.world

/-- Foreign code is at work above an operation, which waits for it. -/
def Hosting (rest : List Job) (m : Machine) : Prop :=
  ∃ t above u, m.jobs = t :: above ++ u :: rest

/-- A retaining step that is left in peace breaks no promise of its own. -/
theorem Turn.bounded (h : Turn a b) (ha : a.world.Consistent) (hbounded : a.Bounded rest)
    (hlonger : rest.length < a.jobs.length) (hrespects : a.Respects rest) :
    b.Bounded rest ∧ (b.fault = none ∨ b.Hosting rest) := by
  obtain ⟨above, u, hjobs, hfits⟩ := hbounded.resolve_left (by omega)
  cases above with
  | cons t above =>
    -- foreign code is at work, and the step waits
    have hwaits : ∃ above', b.jobs = above' ++ u :: rest ∧ (b.fault = none ∨ b.Hosting rest) := by
      obtain ⟨w, t', js, rfl, ⟨f, -, rfl⟩ | ⟨t', out, w', above', -, -, -, -, rfl⟩⟩ := h.inv
      · exact ⟨t :: above, hjobs, Or.inr ⟨t, above, u, hjobs⟩⟩
      · have hjs : js = above ++ u :: rest := (List.cons.inj hjobs).2
        exact ⟨above' ++ (out.jobs ++ above), by simp [hjs], Or.inl rfl⟩
    obtain ⟨above', hb, hfault⟩ := hwaits
    refine ⟨Or.inr ⟨above', u, hb, fun sc hsc => ?_⟩, hfault⟩
    exact (hfits sc hsc).of_registry (h.spares hjobs hsc hrespects)
  | nil =>
    obtain ⟨w, t, js, rfl, ⟨f, herr, rfl⟩ | ⟨t', out, w', above', ht', hrun, hw', habove, rfl⟩⟩ :=
      h.inv
    · obtain ⟨rfl, rfl⟩ := List.cons.inj hjobs
      obtain ⟨-, sc, rfl⟩ := Job.fault_of_consistent ha herr
      obtain ⟨out, hout, -⟩ := RegistryOp.fits_screen ha (hfits sc rfl)
      cases herr.symm.trans hout
    · obtain ⟨rfl, rfl⟩ := List.cons.inj hjobs
      have ht : ∀ sc ∈ t'.screening?, sc.Fits w := by
        rcases ht' with rfl | ⟨sc, rule, -, rfl, rfl⟩
        · exact hfits
        · rintro sc' ⟨⟩
          exact hfits sc rfl
      have hnext : ∀ v ∈ above' ++ out.jobs, ∀ sc ∈ v.screening?, sc.Fits w' := by
        refine List.forall_mem_append.2 ⟨fun v hv sc hsc => ?_, fun v hv sc hsc => ?_⟩
        · rw [(Job.ordinary_of_foreign (habove v hv)).1] at hsc
          cases hsc
        · have hfits := Job.fits_run ha ht hrun v hv sc hsc
          rcases hw' with rfl | ⟨hook, -, rfl⟩ <;> exact hfits
      refine ⟨?_, Or.inl rfl⟩
      rw [← List.append_assoc]
      rcases List.eq_nil_or_concat (above' ++ out.jobs) with hnil | ⟨top, v, htop⟩
      · exact Or.inl (by simp [hnil])
      · rw [htop] at hnext
        exact Or.inr ⟨top, v, by simp [htop], hnext v (by simp)⟩

/-- **Only foreign code can break a promise** while an operation is performed whose retaining
step it leaves in peace. -/
theorem Run.fault_of_respects (h : Run a ms b) (ha : a.world.Consistent) {op : RegistryOp}
    (hjobs : a.jobs = .perform (.op (.registry op)) :: rest) (hfault : a.fault = none)
    (hms : ∀ x ∈ ms, rest.length < x.jobs.length ∧ x.Respects rest) :
    b.fault = none ∨ b.Hosting rest := by
  have hstart : a.Bounded rest := Or.inr ⟨[], _, hjobs, fun sc hsc => by cases hsc⟩
  exact (h.preserves_of (P := fun x => x.world.Consistent ∧ x.Bounded rest ∧
      (x.fault = none ∨ x.Hosting rest))
    (fun _ _ hx hok hturn => ⟨hturn.consistent hx.1, hturn.bounded hx.1 hx.2.1 hok.1 hok.2⟩)
    hms ⟨ha, hstart, Or.inl hfault⟩).1.2.2

/-- Turns that act on no registry leave the contents of all registries alone. -/
theorem Run.rosters_of_idle (h : Run a ms b) (ha : a.world.Consistent)
    (hms : ∀ x ∈ ms, x.act? = none) : b.world.rosters = a.world.rosters :=
  (h.preserves_of (P := fun x => x.world.Consistent ∧ x.world.rosters = a.world.rosters)
    (fun _ _ hx hidle hturn =>
      ⟨hturn.consistent hx.1, (hturn.rosters_of_none hx.1 hidle).trans hx.2⟩)
    hms ⟨ha, rfl⟩).1.2

/-! ## Whole runs -/

variable {objects : List ForeignObject} {steps : List Step}

/-- **A retaining step, from end to end.** Suppose that foreign code leaves the registry
alone while the step decides. Then the step itself breaks no promise. It asks about every
entry once, in order, before it unlinks any, and unlinks in one turn those that it decided
against. These are released once each and in order, after all of them were unlinked, and
their number is the answer. A finalizer that is called then finds the registry pruned,
and what it does there stays: the contents in the end are what the hooks alone make of the
pruned registries. -/
theorem retaining_prunes (h : Run (session objects steps) ms m) {s : Nat} {keep : Keep}
    {rest : List Job} (hjobs : m.jobs = .perform (.op (.registry (.retain s keep))) :: rest)
    (hfault : m.fault = none) :
    (∀ during b, Run m during b →
      (∀ x ∈ during, rest.length < x.jobs.length ∧ x.Respects rest) →
        b.fault = none ∨ b.Hosting rest) ∧
    ∀ during c, Performance.Complete ⟨.retain s keep, rest, m, during, c⟩ →
      (∀ x ∈ during, x.Respects rest) →
        ∃ before e d after,
          Performance.Prunes ⟨.retain s keep, rest, m, during, c⟩ s before e d after ∧
          (∀ mid x tail, d :: after = mid ++ x :: tail → (∀ y ∈ mid, y.hosts rest = false) →
            x.world.rosters = d.world.rosters) ∧
          Roster.replay d.world.rosters
              ((history (d :: after)).map fun x => (x.registry, x.action)) =
            ((history (d :: after)).map Act.reply, c.world.rosters) := by
  have hw : m.world.Consistent := h.consistent.1
  refine ⟨fun during b hrun hms => hrun.fault_of_respects hw hjobs hfault hms, ?_⟩
  intro during c hp hrespect
  obtain ⟨before, e, d, after, hturn, hprunes⟩ :=
    hp.prunes rfl hw (h.peopled m List.mem_cons_self) hrespect
  have hduring : during = before ++ e :: d :: after := hprunes.place.during
  obtain ⟨hbefore, hafter⟩ := (hduring ▸ hp.run).split
  obtain ⟨-, hrest⟩ := hafter.uncons
  have hconsistent : d.world.Consistent :=
    hturn.consistent ((h.append hbefore).consistent.1)
  refine ⟨before, e, d, after, hprunes, ?_, hrest.replay_history hconsistent⟩
  intro mid x tail hsplit hmid
  obtain ⟨hrun, -⟩ := (hsplit ▸ hrest).split
  refine hrun.rosters_of_idle hconsistent fun y hy => ?_
  by_contra hact
  have hhosts := hprunes.hooks y (hsplit ▸ List.mem_append_left _ hy) hact
  exact Bool.noConfusion ((hmid y hy).symm.trans hhosts)

/-- Three objects that hash by their addresses. -/
def relapseObjects : List ForeignObject :=
  [.plain 0x1000 1 (.always .identity), .plain 0x2000 1 (.always .identity),
    .plain 0x3000 1 (.always .identity)]

/-- The finalizer of the first object registers the third one. -/
def relapse : Program :=
  ⟨[⟨none, some [.op (.registry (.insert 0 (.fresh (some 2)) none))]⟩]⟩

/-- Registers all three, keeping no other reference on the first one, and retains the second
one. -/
def relapseSteps : List Step :=
  [.op (.registry (.insert 0 (.fresh (some 0)) none)), .op (.host (.decref 0)),
    .op (.registry (.insert 0 (.fresh (some 1)) none)),
    .op (.registry (.insert 0 (.fresh (some 2)) none)),
    .op (.registry (.retain 0 (.rule (.among [1]))))]

/-- The machine that is about to retain the second object. -/
def relapsing : Machine := (session relapseObjects relapseSteps).turns relapse 15

/-- How it does so. -/
def pruning : Performance :=
  ⟨.retain 0 (.rule (.among [1])), [], relapsing, visited relapse 14 relapsing,
    relapsing.turns relapse 14⟩

/-- The first and the third object are taken out and released, and the third one, which is
registered again meanwhile, stays. -/
theorem retaining_prunes_in_relapse :
    (∃ before e d after, pruning.during = before ++ e :: d :: after ∧
      (d.world.registry 0).entries = [(⟨2, 1⟩, ⟨some 1, 0x2000⟩)] ∧
      releases [] (d :: after) = [some 0, some 2]) ∧
    pruning.answer = .count 2 ∧
    (pruning.last.world.registry 0).get? ⟨3, 3⟩ = some ⟨some 2, 0x3000⟩ := by
  have hjobs : relapsing.jobs =
    .perform (.op (.registry (.retain 0 (.rule (.among [1]))))) :: [] := rfl
  obtain ⟨-, hcomplete⟩ :=
    retaining_prunes (run_visited relapse 15 (session relapseObjects relapseSteps)) hjobs rfl
  obtain ⟨before, e, d, after, hprunes, -⟩ := hcomplete pruning.during pruning.last
    ⟨rfl, run_visited relapse 14 relapsing, rfl, by decide +kernel⟩ (by decide +kernel)
  refine ⟨⟨before, e, d, after, hprunes.place.during, ?_, ?_⟩, rfl, by decide +kernel⟩
  · rw [hprunes.kept]
    decide +kernel
  · exact hprunes.released.trans (by decide +kernel)

end Machine

end ListenerRegistry
