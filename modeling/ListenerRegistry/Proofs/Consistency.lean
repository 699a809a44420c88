import ListenerRegistry.Proofs.Jobs

/-!
# Foreign code sees consistent registries

Every turn is one stretch of library code, and foreign code runs between turns
only. All registries are sound between turns, whatever foreign code does, so no
hook ever meets an open section or an index that disagrees with its storage, and
the promises of the library are kept. The one fault that is left, a retaining
step that meets more entries than there were, needs foreign code that changes
the registry which is being gone through.
-/

namespace ListenerRegistry

/-! ## Soundness between turns -/

namespace Machine

theorem Turn.consistent {a b : Machine} (h : Turn a b) (ha : a.world.Consistent) :
    b.world.Consistent := by
  obtain ⟨w, t, rest, rfl, ⟨f, -, rfl⟩ | ⟨t', out, w', above, -, hrun, hw', -, rfl⟩⟩ := h.inv
  · exact ha
  · have hout := Job.consistent_run ha hrun
    rcases hw' with rfl | ⟨hook, -, rfl⟩
    · exact hout
    · exact hout

theorem Run.preserves_consistent {a b : Machine} {ms : List Machine} (h : Run a ms b)
    (ha : a.world.Consistent) : b.world.Consistent ∧ ∀ m ∈ ms, m.world.Consistent :=
  h.preserves (P := fun m => m.world.Consistent) (fun _ _ hm hmn => hmn.consistent hm) ha

theorem Run.consistent {objects : List ForeignObject} {steps : List Step} {ms : List Machine}
    {m : Machine} (h : Run (session objects steps) ms m) :
    m.world.Consistent ∧ ∀ a ∈ ms, a.world.Consistent :=
  h.preserves_consistent (World.consistent_init objects)

theorem Run.consistent_of_mem {objects : List ForeignObject} {steps : List Step}
    {ms : List Machine} {m : Machine} (h : Run (session objects steps) ms m) {a : Machine}
    (ha : a ∈ m :: ms) : a.world.Consistent := by
  obtain ⟨hm, hms⟩ := h.consistent
  rcases List.mem_cons.1 ha with rfl | ha
  · exact hm
  · exact hms a ha

/-- A turn whose job has an action carries the job out and calls nobody. -/
theorem Turn.run_of_action {a b : Machine} (h : Turn a b) (ha : a.world.Consistent) {t : Job}
    {rest : List Job} {s : Nat} {act : Action} (hjobs : a.jobs = t :: rest)
    (hact : t.action? a.world = some (s, act)) :
    ∃ out, t.run a.world = .ok out ∧ b = ⟨out.world, out.jobs ++ rest, none⟩ := by
  obtain ⟨r, hp, -⟩ := Registry.perform_eq (ha s) act
  obtain ⟨out, hout, htakes⟩ := Job.takes_run hact hp
  refine ⟨out, hout, ?_⟩
  cases h.follows hjobs hout with
  | next => rfl
  | hook _ _ hcall =>
    rw [htakes.call] at hcall
    cases hcall
  | predicate _ _ ht hslot =>
    subst ht
    simp [Job.action?, hslot] at hact

/-- **A turn whose job has an action** takes it on a sound registry, and all that
comes on top of the other jobs is to release some handles and to answer. -/
theorem Turn.takes {a b : Machine} (h : Turn a b) (ha : a.world.Consistent) {t : Job}
    {rest : List Job} {s : Nat} {act : Action} (hjobs : a.jobs = t :: rest)
    (hact : t.action? a.world = some (s, act)) :
    ∃ (out : Outcome) (r : Registry), (a.world.registry s).perform act =
        .ok ((Roster.apply (a.world.registry s).slots act).1, r) ∧
      r.slots = (Roster.apply (a.world.registry s).slots act).2 ∧
      out.Takes a.world s r (t.conclude (Roster.apply (a.world.registry s).slots act).1) ∧
      b = ⟨out.world, out.jobs ++ rest, none⟩ := by
  obtain ⟨r, hp, hslots, -⟩ := Registry.perform_eq (ha s) act
  obtain ⟨out, hout, htakes⟩ := Job.takes_run hact hp
  obtain ⟨out', hout', rfl⟩ := h.run_of_action ha hjobs hact
  obtain rfl := Except.ok.inj (hout.symm.trans hout')
  exact ⟨out, r, hp, hslots, htakes, rfl⟩

theorem Turn.fault {a b : Machine} (h : Turn a b) (ha : a.world.Consistent) :
    b.fault = none ∨ b.fault = some .overrun := by
  obtain ⟨w, t, rest, rfl, ⟨f, herr, rfl⟩ | ⟨t', out, w', above, -, -, -, -, rfl⟩⟩ := h.inv
  · exact Or.inr (congrArg some (Job.fault_of_consistent ha herr).1)
  · exact Or.inl rfl

end Machine

/-! ## Retaining steps that are left in peace -/

/-- There are no more entries to ask about than questions left. -/
def Screening.Fits (s : Screening) (w : World) : Prop :=
  s.asked + (s.pending.filterMap (w.registry s.registry).entryAt?).length ≤ s.total

variable {w w' : World} {s : Screening}

theorem Screening.Fits.of_registry (h : s.Fits w)
    (hw : w'.registry s.registry = w.registry s.registry) : s.Fits w' := by
  rw [Fits, hw]
  exact h

theorem Screening.Fits.judge (h : s.Fits w) (id : ListenerId) (keep : Bool) :
    (s.judge id keep).Fits w := by
  cases keep <;> exact h

/-- A retaining step asks about the entries that its registry has when it
begins. -/
theorem Screening.fits_start (hw : w.Consistent) (s : Nat) (keep : Keep) :
    Fits ⟨s, keep, (w.registry s).size, (w.registry s).slotNumbers, 0, []⟩ w := by
  have hvisit : (w.registry s).slotNumbers.filterMap (w.registry s).entryAt? =
      (w.registry s).slots.entries := (SlotTable.entries_eq_filterMap _).symm
  have hsize : (w.registry s).size = (w.registry s).slots.entries.length := (hw s).slots.size_eq
  simp [Fits, hvisit, hsize]

/-- The next visit is within bounds, and the visits after it are. -/
theorem RegistryOp.fits_screen (hw : w.Consistent) (h : s.Fits w) :
    ∃ out, screen w s = .ok out ∧
      ∀ u ∈ out.jobs, ∀ s' ∈ u.screening?, s'.Fits out.world := by
  cases hpending : s.pending with
  | nil =>
    obtain ⟨r, hp, -⟩ := Registry.perform_eq (hw s.registry) (.strike s.doomed.reverse)
    obtain ⟨out, hout, htakes⟩ := takes_screen hpending hp
    refine ⟨out, hout, fun u hu s' hs' => ?_⟩
    rw [(htakes.ordinary u hu).1] at hs'
    cases hs'
  | cons i pending =>
    rw [Screening.Fits, hpending] at h
    simp only [screen, hpending]
    cases hentry : (w.registry s.registry).entryAt? i with
    | none =>
      rw [List.filterMap_cons_none hentry] at h
      refine ⟨_, rfl, ?_⟩
      simpa [Job.screening?, Screening.Fits] using h
    | some e =>
      obtain ⟨id, k⟩ := e
      rw [List.filterMap_cons_some hentry, List.length_cons] at h
      -- the entry itself is counted, so that there is room for one more question
      have hroom : s.asked ≠ s.total := by omega
      have hworld : (k.handle.elim w fun o => w.emit (.keep o)).registry s.registry =
          w.registry s.registry := by
        cases k.handle <;> rfl
      have hnext : Screening.Fits { s with pending, asked := s.asked + 1 }
          (k.handle.elim w fun o => w.emit (.keep o)) := by
        show s.asked + 1 +
          (pending.filterMap (World.registry _ s.registry).entryAt?).length ≤ s.total
        rw [hworld]
        omega
      simp only [if_neg hroom]
      cases hkeep : s.keep with
      | hashBelow bound =>
        refine ⟨_, rfl, ?_⟩
        simpa [Job.screening?, HashUse.screening?, hkeep] using hnext
      | rule rule =>
        refine ⟨_, rfl, ?_⟩
        simpa [Job.screening?, hkeep] using hnext.judge id _

/-- **A job keeps the bounds of the retaining step that it belongs to**, and of
the one that it starts. -/
theorem Job.fits_run {t : Job} {out : Outcome} (hw : w.Consistent)
    (ht : ∀ s ∈ t.screening?, s.Fits w) (h : t.run w = .ok out) :
    ∀ u ∈ out.jobs, ∀ s ∈ u.screening?, s.Fits out.world := by
  by_cases hnone : t.screening? = none
  · by_cases hretain : ∃ s keep, t = .perform (.op (.registry (.retain s keep)))
    · obtain ⟨s, keep, rfl⟩ := hretain
      cases h
      simpa [Job.screening?] using Screening.fits_start hw s keep
    · by_cases hassign : ∃ r src, t = .perform (.op (.handle (.assign r src)))
      · obtain ⟨r, src, rfl⟩ := hassign
        cases h
        simp [HandleOp.run, HandleOp.copyOver, Job.screening?]
      · intro u hu s hs
        have hu := Job.ordinary_run hw h hnone (fun s keep he => hretain ⟨s, keep, he⟩)
          (fun r src he => hassign ⟨r, src, he⟩) u hu
        rw [hu.1] at hs
        cases hs
  · obtain ⟨s, hs⟩ := Option.ne_none_iff_exists'.1 hnone
    have hfits := ht s hs
    cases t with
    | screen s' =>
      obtain rfl : s' = s := Option.some.inj hs
      obtain ⟨out', hout, hjobs⟩ := RegistryOp.fits_screen hw hfits
      obtain rfl : out' = out := Except.ok.inj (hout.symm.trans h)
      exact hjobs
    | ask use =>
      cases use with
      | screen bound id s' =>
        obtain rfl : s' = s := Option.some.inj hs
        simp only [run] at h
        split at h <;> cases h
        · simpa [Job.screening?] using hfits.judge id _
        · rename_i o _
          have hemit : s'.Fits (w.emit (.hash o)) := hfits.of_registry rfl
          simpa [Job.screening?, HashUse.screening?] using hemit
      | _ => cases hs
    | hashed o use =>
      cases use with
      | screen bound id s' =>
        obtain rfl : s' = s := Option.some.inj hs
        cases h
        have hcount : s'.Fits (w.modifyObject o ForeignObject.countHash) := hfits.of_registry rfl
        simpa [Job.screening?] using hcount.judge id _
      | _ => cases hs
    | _ => cases hs

namespace Machine

/-- The job on top changes no registry that a retaining step further down is
going through. Only the foreign code of such a step could do so. -/
def Respectful (m : Machine) : Prop :=
  match m.jobs with
  | [] => True
  | t :: rest =>
      match t.run m.world with
      | .ok out => ∀ s ∈ rest.filterMap Job.screening?,
          out.world.registry s.registry = m.world.registry s.registry
      | .error _ => True

instance (m : Machine) : Decidable m.Respectful := by
  unfold Respectful
  split
  · infer_instance
  · split <;> infer_instance

/-- Every retaining step under way keeps within its bounds. -/
def Fits (m : Machine) : Prop :=
  ∀ u ∈ m.jobs, ∀ s ∈ u.screening?, s.Fits m.world

theorem Turn.fits {a b : Machine} (h : Turn a b) (hw : a.world.Consistent) (hr : a.Respectful)
    (ha : a.Fits) : b.Fits := by
  obtain ⟨w, t, rest, rfl, ⟨f, -, rfl⟩ | ⟨t', out, w', above, ht', hrun, hw', habove, rfl⟩⟩ := h.inv
  · exact ha
  have hregistry (s : Nat) : w'.registry s = out.world.registry s := by
    rcases hw' with rfl | ⟨hook, -, rfl⟩ <;> rfl
  have ht : ∀ s ∈ t'.screening?, s.Fits w := by
    rcases ht' with rfl | ⟨s, rule, -, rfl, rfl⟩
    · exact ha t' List.mem_cons_self
    · rintro s' ⟨⟩
      exact ha (.screen s) List.mem_cons_self s rfl
  have hrest : ∀ u ∈ rest, ∀ s ∈ u.screening?,
      out.world.registry s.registry = w.registry s.registry := by
    intro u hu s hs
    rcases ht' with rfl | ⟨s', rule, hpending, rfl, rfl⟩
    · simp only [Respectful, hrun] at hr
      exact hr s (List.mem_filterMap.2 ⟨u, hu, hs⟩)
    · -- a predicate that has been consulted changes nothing in this turn
      exact Job.registry_run (by simp [Job.action?, hpending]) hrun _
  intro u hu s hs
  simp only [List.mem_append] at hu
  -- foreign code, what the job left to do, and what was waiting below it
  rcases hu with hu | hu | hu
  · rw [(Job.ordinary_of_foreign (habove u hu)).1] at hs
    cases hs
  · exact (Job.fits_run hw ht hrun u hu s hs).of_registry (hregistry _)
  · exact (ha u (List.mem_cons_of_mem _ hu) s hs).of_registry
      ((hregistry _).trans (hrest u hu s hs))

/-- A retaining step that keeps within its bounds breaks no promise. -/
theorem Turn.fault_of_fits {a b : Machine} (h : Turn a b) (hw : a.world.Consistent) (ha : a.Fits) :
    b.fault = none := by
  obtain ⟨w, t, rest, rfl, ⟨f, herr, rfl⟩ | ⟨t', out, w', above, -, -, -, -, rfl⟩⟩ := h.inv
  · obtain ⟨-, s, rfl⟩ := Job.fault_of_consistent hw herr
    obtain ⟨out, hout, -⟩ := RegistryOp.fits_screen hw (ha _ List.mem_cons_self s rfl)
    rw [show Job.run w (.screen s) = .ok out from hout] at herr
    cases herr
  · rfl

theorem fits_session (objects : List ForeignObject) (steps : List Step) :
    (session objects steps).Fits := by
  intro u hu s hs
  obtain ⟨step, -, rfl⟩ := List.mem_map.1 hu
  cases hs

/-- **Foreign code only ever sees consistent registries.** Wherever a turn starts
or a run ends, and so whenever a hook is entered, every registry has its monitor
idle and its index and its slots in agreement. No section is opened inside
another one or closed twice, and no stored entry is missing from the index. If
the foreign code of a retaining step leaves its registry alone, nothing goes
wrong at all. -/
theorem registries_sound_throughout {objects : List ForeignObject} {steps : List Step}
    {ms : List Machine} {m : Machine} (h : Run (session objects steps) ms m) :
    (∀ a ∈ m :: ms, ∀ s, (a.world.registry s).Sound) ∧
      (m.fault = none ∨ m.fault = some .overrun) ∧
      ((∀ a ∈ ms, a.Respectful) → m.fault = none) := by
  obtain ⟨hm, hms⟩ := h.consistent
  refine ⟨?_, ?_, fun hr => ?_⟩
  · rintro a (_ | ⟨_, ha⟩)
    · exact hm
    · exact hms a ha
  · exact (h.preserves (P := fun a => a.world.Consistent ∧
      (a.fault = none ∨ a.fault = some .overrun))
      (fun _ _ ha hab => ⟨hab.consistent ha.1, hab.fault ha.1⟩)
      ⟨World.consistent_init objects, Or.inl rfl⟩).1.2
  · exact (h.preserves_of (P := fun a => a.world.Consistent ∧ a.Fits ∧ a.fault = none)
      (fun _ _ ha hok hab => ⟨hab.consistent ha.1, hab.fits ha.1 hok ha.2.1,
        hab.fault_of_fits ha.1 ha.2.1⟩)
      hr ⟨World.consistent_init objects, fits_session objects steps, rfl⟩).1.2.2

/-- Two objects that hash by address and are held once each. -/
def meetingObjects : List ForeignObject :=
  [.plain 0x1000 1 (.always .identity), .plain 0x2000 1 (.always .identity)]

/-- Each object registers the other one when it is hashed, and the finalizer of
the first object empties the registry. -/
def meeting : Program :=
  ⟨[⟨some [.op (.registry (.insert 0 (.fresh (some 1)) none))], some [.op (.registry (.clear 0))]⟩,
    ⟨some [.op (.registry (.insert 1 (.fresh (some 0)) none))], none⟩]⟩

/-- Registers the first object, goes through the registry while the hooks insist
on registering what is there already, and lets go of the first object. -/
def meetingSteps : List Step :=
  [.op (.registry (.insert 0 (.fresh (some 0)) none)),
    .op (.registry (.retain 0 (.hashBelow 0x2000))), .op (.host (.decref 0)),
    .op (.registry (.discard 1)), .op (.registry (.clear 0))]

/-- With hooks three calls deep, a retaining step that hashes, and a finalizer
that empties the registry which is being emptied, nothing goes wrong. -/
theorem registries_sound_in_meeting :
    (∀ a ∈ visited meeting 67 (session meetingObjects meetingSteps),
      ∀ s, (a.world.registry s).Sound) ∧
    ((session meetingObjects meetingSteps).turns meeting 67).fault = none :=
  have h := registries_sound_throughout
    (run_visited meeting 67 (session meetingObjects meetingSteps))
  ⟨fun a ha => h.1 a (List.mem_cons_of_mem _ ha), h.2.2 (by decide +kernel)⟩

end Machine

end ListenerRegistry
