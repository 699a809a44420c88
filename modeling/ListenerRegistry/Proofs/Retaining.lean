import ListenerRegistry.Proofs.Coherence
import ListenerRegistry.Proofs.Rulings

/-!
# Retaining steps that are left in peace

If foreign code leaves the registry of a retaining step alone while the step goes
through it, the step decides once about every entry, in order, and in the end takes
out the entries that it decided against.
-/

namespace ListenerRegistry

/-! ## Foreign code that leaves the registry alone -/

namespace Machine

/-- The job on top changes no registry that the retaining step right above the jobs `rest`
is going through, if there is one and it waits. Only foreign code could do so. -/
def Respects (rest : List Job) (m : Machine) : Prop :=
  match m.jobs with
  | [] => True
  | t :: js =>
      match t.run m.world, js.reverse[rest.length]?.bind Job.screening? with
      | .ok out, some sc => out.world.registry sc.registry = m.world.registry sc.registry
      | _, _ => True

theorem respects_iff {m : Machine} {rest : List Job} :
    m.Respects rest ↔ ∀ t ∈ m.jobs.head?, ∀ out ∈ (t.run m.world).toOption,
      ∀ sc ∈ m.jobs.tail.reverse[rest.length]?.bind Job.screening?,
        out.world.registry sc.registry = m.world.registry sc.registry := by
  unfold Respects
  rcases m.jobs with _ | ⟨t, js⟩
  · simp
  · cases hrun : t.run m.world <;>
      cases hsc : js.reverse[rest.length]?.bind Job.screening? <;>
      simp [hrun, hsc, Except.toOption]

instance (rest : List Job) (m : Machine) : Decidable (m.Respects rest) :=
  decidable_of_iff' _ respects_iff

theorem respects_of_respectful {m : Machine} (h : m.Respectful) (rest : List Job) :
    m.Respects rest := by
  unfold Respectful at h
  unfold Respects
  split
  · trivial
  · rename_i t js hjobs
    simp only [hjobs] at h
    split
    · rename_i out sc hrun hsc
      simp only [hrun] at h
      obtain ⟨u, hu, hsc⟩ := Option.bind_eq_some_iff.1 hsc
      have hmem : u ∈ js := List.mem_reverse.1 (List.mem_of_getElem? hu)
      exact h sc (List.mem_filterMap.2 ⟨u, hmem, hsc⟩)
    · trivial

/-- Foreign code of a retaining step changes no registry that the step goes through. -/
theorem Turn.spares {a b : Machine} (h : Turn a b) {t u : Job} {above rest : List Job}
    (hjobs : a.jobs = t :: above ++ u :: rest) {sc : Screening} (hu : u.screening? = some sc)
    (hr : a.Respects rest) :
    b.world.registry sc.registry = a.world.registry sc.registry := by
  obtain ⟨w, t', js, rfl, ⟨f, -, rfl⟩ | ⟨t'', out, w', above', ht', hrun, hw', -, rfl⟩⟩ := h.inv
  · rfl
  have hsame : out.world.registry sc.registry = w.registry sc.registry := by
    rcases ht' with rfl | ⟨s', rule, hpending, rfl, rfl⟩
    · have hjs : js = above ++ u :: rest := (List.cons.inj hjobs).2
      have hwaits : (above ++ u :: rest).reverse[rest.length]?.bind Job.screening? = some sc := by
        rw [getElem?_reverse_above]
        exact hu
      simpa only [Respects, hrun, hjs, hwaits] using hr
    · -- a predicate that has been consulted changes nothing in this turn
      exact Job.registry_run (by simp [Job.action?, hpending]) hrun _
  rcases hw' with rfl | ⟨hook, -, rfl⟩
  · exact hsame
  · exact hsame

theorem Run.spares {a b : Machine} {ms : List Machine} (h : Run a ms b) {u : Job}
    {rest : List Job} {sc : Screening} (hu : u.screening? = some sc)
    (hms : ∀ d ∈ ms, d.Respects rest ∧ ∃ t above, d.jobs = t :: above ++ u :: rest) :
    ∀ d ∈ b :: ms, d.world.registry sc.registry = a.world.registry sc.registry := by
  obtain ⟨hb, hall⟩ := h.preserves_of
    (P := fun m => m.world.registry sc.registry = a.world.registry sc.registry)
    (fun _ _ hm ⟨hr, _, _, hjobs⟩ hturn => (hturn.spares hjobs hu hr).trans hm) hms rfl
  exact List.forall_mem_cons.2 ⟨hb, hall⟩

end Machine

/-! ## One turn of a retaining step -/

/-- The entries of `r` that are still to be visited. -/
def Screening.ahead (sc : Screening) (r : Registry) : List ListenerId :=
  (sc.pending.filterMap r.entryAt?).map (·.1)

/-- The job goes through the registry `s` with the contents `r`. It has decided about
the entries `ruled`; the others are still ahead. -/
def Job.Sifts (s : Nat) (r : Registry) (ruled : List (ListenerId × Bool)) : Job → Prop
  | screen sc => sc.registry = s ∧ sc.doomed.reverse = Machine.rejected ruled ∧
      ruled.map (·.1) ++ sc.ahead r = r.entries.map (·.1)
  | ask (.screen _ id sc) | hashed _ (.screen _ id sc) =>
      sc.registry = s ∧ sc.doomed.reverse = Machine.rejected ruled ∧
        ruled.map (·.1) ++ id :: sc.ahead r = r.entries.map (·.1)
  | _ => False

/-- The entries that a retaining step has asked about when the job comes up, if it has
decided `ruled`. -/
def Job.inquired (ruled : List (ListenerId × Bool)) : Job → List ListenerId
  | ask (.screen _ id _) | hashed _ (.screen _ id _) => ruled.map (·.1) ++ [id]
  | _ => ruled.map (·.1)

namespace Job

variable {s : Nat} {r : Registry} {ruled : List (ListenerId × Bool)} {t : Job}

theorem Sifts.screening? (h : t.Sifts s r ruled) : ∃ sc, t.screening? = some sc ∧ sc.registry = s := by
  cases t with
  | screen sc => exact ⟨sc, rfl, h.1⟩
  | ask use | hashed o use =>
    cases use with
    | screen bound id sc => exact ⟨sc, rfl, h.1⟩
    | _ => exact h.elim
  | _ => exact h.elim

/-- A decision about the entry at hand. -/
theorem Sifts.judge {bound : UInt64} {id : ListenerId} {sc : Screening}
    (h : (ask (.screen bound id sc)).Sifts s r ruled) (keep : Bool) :
    (screen (sc.judge id keep)).Sifts s r (ruled ++ [(id, keep)]) := by
  obtain ⟨hs, hdoomed, hahead⟩ := h
  refine ⟨?_, ?_, ?_⟩
  · rwa [Screening.judge_registry]
  · rw [Machine.rejected_judge, hdoomed, Machine.rejected_append]
  · rw [← hahead]
    simp [Screening.ahead]

/-- The visit of a slot, under any rule. -/
theorem Sifts.visit {w : World} {sc : Screening} {out : Outcome} (hw : w.registry s = r)
    (h : (screen sc).Sifts s r ruled) (hpending : sc.pending ≠ [])
    (hrun : (screen sc).run w = .ok out) :
    ∃ u, out.jobs = [u] ∧ u.Sifts s r (ruled ++ ((screen sc).rules? w u).toList) ∧
      u.inquired (ruled ++ ((screen sc).rules? w u).toList) =
        ruled.map (·.1) ++ (sc.question? w).toList := by
  subst hw
  obtain ⟨rfl, hdoomed, hahead⟩ := h
  obtain ⟨i, pending, hcons⟩ := List.exists_cons_of_ne_nil hpending
  have hquestion := Screening.question?_of_pending w hcons
  rw [Screening.ahead, hcons] at hahead
  have hvisits := RegistryOp.visits_of_screen hcons hrun
  generalize out.jobs = js at hvisits ⊢
  cases hvisits with
  | passes hentry =>
    rw [List.filterMap_cons_none hentry] at hahead
    refine ⟨_, rfl, ?_⟩
    rw [rules?_of_vacant hcons hentry, hquestion, hentry]
    simpa [inquired] using ⟨rfl, hdoomed, hahead⟩
  | @asks id k bound hentry hkeep =>
    rw [List.filterMap_cons_some hentry, List.map_cons] at hahead
    refine ⟨_, rfl, ?_⟩
    simpa [rules?, hquestion, hentry, inquired] using ⟨rfl, hdoomed, hahead⟩
  | @decides id k rule hentry hkeep =>
    rw [List.filterMap_cons_some hentry, List.map_cons] at hahead
    refine ⟨_, rfl, ?_⟩
    have hask : (ask (.screen 0 id { sc with pending, asked := sc.asked + 1 })).Sifts sc.registry
        (w.registry sc.registry) ruled := ⟨rfl, hdoomed, hahead⟩
    simpa [rules?, hquestion, hentry, hcons, hkeep, inquired] using hask.judge _

/-- No job of the step acts on a registry before the last visit. -/
theorem Sifts.action? (h : t.Sifts s r ruled) (hvisit : ∀ sc, t = screen sc → sc.pending ≠ [])
    (w : World) : t.action? w = none := by
  cases t with
  | screen sc => simp [Job.action?, hvisit sc rfl]
  | ask use =>
    cases use with
    | screen => simp [Job.action?, HashUse.action?]
    | _ => exact h.elim
  | hashed o use =>
    cases use with
    | screen => cases hout : w.hashOutcome o <;> simp [Job.action?, HashUse.action?, hout]
    | _ => exact h.elim
  | _ => exact h.elim

/-- The probe of the step is on the entry at hand, so that it is not null. -/
theorem Sifts.probe {w : World} {bound : UInt64} {id : ListenerId} {sc : Screening}
    (h : (ask (.screen bound id sc)).Sifts s r ruled) (hw : w.registry s = r)
    (hpeopled : ∀ id k, r.get? id = some k → k.handle ≠ none) :
    ∃ o, (Grip.entry sc.registry id).handle w = some o := by
  obtain ⟨hs, -, hahead⟩ := h
  have hmem : id ∈ r.entries.map (·.1) := by
    rw [← hahead]
    simp
  obtain ⟨e, he, rfl⟩ := List.mem_map.1 hmem
  have hget : r.get? e.1 = some e.2 := SlotTable.mem_entries.1 he
  obtain ⟨o, ho⟩ := Option.ne_none_iff_exists'.1 (hpeopled e.1 e.2 hget)
  exact ⟨o, by simp only [Grip.handle, hs, hw, hget, Option.bind_some, ho]⟩

/-- **A job of the step leaves the next one**, and what it decides meanwhile is about
the entry at hand. A predicate that is consulted takes the place of the rule. -/
theorem Sifts.run {w : World} {t' : Job} {out : Outcome} (h : t.Sifts s r ruled)
    (hw : w.registry s = r) (hpeopled : ∀ id k, r.get? id = some k → k.handle ≠ none)
    (hvisit : ∀ sc, t = screen sc → sc.pending ≠ []) (ht' : t.Variant t')
    (hrun : t'.run w = .ok out) (rest : List Job) :
    ∃ u, out.jobs = [u] ∧ u.Sifts s r (ruled ++ (t.rules? w u).toList) ∧
      u.inquired (ruled ++ (t.rules? w u).toList) =
        t.inquired ruled ++ (Machine.question? ⟨w, t :: rest, none⟩).toList := by
  cases t with
  | screen sc =>
    rcases ht' with rfl | ⟨_, rule, -, ⟨⟩, rfl⟩
    · exact h.visit hw (hvisit sc rfl) hrun
    · have h : (screen { sc with keep := rule }).Sifts s r ruled := h
      obtain ⟨u, hu, hsifts⟩ := h.visit hw (hvisit sc rfl) hrun
      rw [rules?_keep] at hsifts
      exact ⟨u, hu, hsifts⟩
  | ask use =>
    obtain rfl : t' = ask use := by
      rcases ht' with rfl | ⟨_, _, _, hask, _⟩
      · rfl
      · cases hask
    cases use with
    | screen bound id sc =>
      obtain ⟨o, hprobe⟩ := h.probe hw hpeopled
      simp only [Job.run, HashUse.probe, hprobe] at hrun
      cases hrun
      refine ⟨hashed o (.screen bound id sc), rfl, ?_⟩
      have hnext : (hashed o (.screen bound id sc)).Sifts s r ruled := h
      exact ⟨by simpa [rules?] using hnext, by simp [rules?, inquired, Machine.question?]⟩
    | _ => exact h.elim
  | hashed o use =>
    obtain rfl : t' = hashed o use := by
      rcases ht' with rfl | ⟨_, _, _, hask, _⟩
      · rfl
      · cases hask
    cases use with
    | screen bound id sc =>
      cases hrun
      have hask : (ask (.screen bound id sc)).Sifts s r ruled := h
      refine ⟨_, rfl, hask.judge _, ?_⟩
      simp [rules?, inquired, Machine.question?]
    | _ => exact h.elim
  | _ => exact h.elim

end Job

namespace Machine

variable {a b c : Machine} {t : Job} {rest : List Job} {s : Nat} {r : Registry}
  {ruled : List (ListenerId × Bool)}

/-- A turn of a retaining step that has slots left to visit decides about at most one
entry, the next one, and leads to the next turn of the step. -/
theorem Turn.sifts (h : Turn a b) (hb : b.fault = none) (hjobs : a.jobs = t :: rest)
    (hr : a.world.registry s = r) (hpeopled : ∀ id k, r.get? id = some k → k.handle ≠ none)
    (ht : t.Sifts s r ruled) (hvisit : ∀ sc, t = .screen sc → sc.pending ≠ []) :
    ∃ above u, b.jobs = above ++ u :: rest ∧ b.world.registry s = r ∧
      u.Sifts s r (ruled ++ (ruling? rest a b).toList) ∧
      u.inquired (ruled ++ (ruling? rest a b).toList) =
        t.inquired ruled ++ a.question?.toList := by
  obtain ⟨w, t, rest, rfl, ⟨f, -, rfl⟩ | ⟨t', out, w', above, ht', hrun, hw', -, rfl⟩⟩ := h.inv
  · cases hb
  cases hjobs
  have hnone : t'.action? w = none := by
    rcases ht' with rfl | ⟨sc, rule, hpending, rfl, rfl⟩
    · exact ht.action? hvisit w
    · simp [Job.action?, hpending]
  have hsame : w'.registry s = r := by
    rw [← hr, ← Job.registry_run hnone hrun s]
    rcases hw' with rfl | ⟨hook, -, rfl⟩ <;> rfl
  obtain ⟨u, hu, hsifts, hinquired⟩ := ht.run hr hpeopled hvisit ht' hrun rest
  have hbelow : above ++ (out.jobs ++ rest) = above ++ u :: rest := by rw [hu]; rfl
  refine ⟨above, u, hbelow, hsame, ?_⟩
  rw [ruling?_of_jobs rfl hbelow]
  exact ⟨hsifts, hinquired⟩

/-- **A retaining step that is left in peace** asks and decides about all the entries, and
comes to the end with the registry as it was and the rejected entries doomed. -/
theorem Run.sifts {ms : List Machine} (h : Run a ms c) (ha : a.world.Consistent)
    (hjobs : a.jobs = t :: rest) (hr : a.world.registry s = r)
    (hpeopled : ∀ id k, r.get? id = some k → k.handle ≠ none) (ht : t.Sifts s r ruled)
    (hc : c.jobs = rest) (hms : ∀ e ∈ ms, rest.length < e.jobs.length)
    (hrespect : ∀ e ∈ ms, e.Respects rest) :
    ∃ before e after sc, ms = before ++ e :: after ∧
      (∀ d ∈ before, (∃ t, d.jobs = t :: rest) → d.act? = none) ∧ e.jobs = .screen sc :: rest ∧
      sc.pending = [] ∧ (∀ d ∈ before ++ [e], d.world.registry s = r) ∧
      (Job.screen sc).Sifts s r (ruled ++ rulings rest (before ++ [e])) ∧
      (ruled ++ rulings rest (before ++ [e])).map (·.1) =
        t.inquired ruled ++ questions rest (before ++ [e]) := by
  induction hn : ms.length using Nat.strong_induction_on generalizing a t ruled ms with
  | _ n ih =>
    subst hn
    cases h with
    | nil => simp [hc] at hjobs
    | @cons _ b _ ms hturn hrun =>
      by_cases hend : ∃ sc, t = .screen sc ∧ sc.pending = []
      · obtain ⟨sc, rfl, hpending⟩ := hend
        refine ⟨[], a, ms, sc, rfl, by simp, hjobs, hpending, by simp [hr],
          by simpa [rulings] using ht, ?_⟩
        simp [rulings, questions, question?, hjobs, Screening.question?, hpending, Job.inquired]
      · have hvisit : ∀ sc, t = .screen sc → sc.pending ≠ [] :=
          fun sc hsc hpending => hend ⟨sc, hsc, hpending⟩
        have hfault : b.fault = none := hrun.fault_of_lt hturn (by simp [hjobs, hc])
        obtain ⟨above, u, hbelow, hsame, hsifts, hinquired⟩ :=
          hturn.sifts hfault hjobs hr hpeopled ht hvisit
        -- `d` is where the foreign code is done and the step goes on
        obtain ⟨during, d, after, rfl, hduring, hafter, hd, htops⟩ :=
          hrun.returns (u :: rest) (by simp [hc]) above hbelow
        obtain ⟨-, hlonger⟩ := List.forall_mem_cons.1 hms
        obtain ⟨-, hcalm⟩ := List.forall_mem_cons.1 hrespect
        obtain ⟨sc', hu, hsc'⟩ := hsifts.screening?
        subst hsc'
        have hspared : ∀ e ∈ d :: during, e.world.registry sc'.registry = r := by
          rw [← hsame]
          exact hduring.spares hu fun e he => ⟨hcalm e (List.mem_append_left _ he), htops e he⟩
        have hconsistent : d.world.Consistent :=
          (hduring.preserves_consistent (hturn.consistent ha)).1
        obtain ⟨before, e, after', sc, rfl, hidle, he, hpending, hkept, hdone, hquestions⟩ :=
          ih after.length (by simp +arith) hafter hconsistent hd (hspared d List.mem_cons_self) hsifts
            (fun m hm => hlonger m (List.mem_append_right _ hm))
            (fun m hm => hcalm m (List.mem_append_right _ hm)) rfl
        refine ⟨a :: (during ++ before), e, after', sc, by simp, ?_, he, hpending, ?_, ?_⟩
        · simp only [List.forall_mem_cons, List.forall_mem_append]
          refine ⟨fun _ => act?_of_no_action hjobs (ht.action? hvisit _), ?_, hidle⟩
          rintro m hm ⟨t', ht'⟩
          obtain ⟨t'', above', hm⟩ := htops m hm
          have hlength := congrArg List.length (hm.symm.trans ht')
          simp only [List.length_append, List.length_cons] at hlength
          omega
        · rw [List.cons_append, List.append_assoc, List.forall_mem_cons, List.forall_mem_append]
          exact ⟨hr, fun m hm => hspared m (List.mem_cons_of_mem _ hm), hkept⟩
        obtain ⟨tail, hfirst⟩ := List.head?_eq_some_iff.1 hafter.split.1.head?
        have hsplit : rulings rest (a :: (during ++ before) ++ [e]) =
            (ruling? rest a b).toList ++ rulings rest (before ++ [e]) := by
          rw [← rulings_cons hduring htops, hfirst, ← List.cons_append, List.append_assoc, hfirst]
          exact rulings_append rest (a :: during) d tail
        rw [hsplit, ← List.append_assoc]
        refine ⟨hdone, ?_⟩
        have hasked : questions rest (a :: (during ++ before) ++ [e]) =
            a.question?.toList ++ questions rest (before ++ [e]) := by
          rw [← questions_cons hjobs htops, ← questions_append]
          simp
        rw [hquestions, hinquired, hasked, List.append_assoc]

end Machine

end ListenerRegistry
