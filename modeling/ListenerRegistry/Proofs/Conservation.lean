import ListenerRegistry.Proofs.Ledger
import ListenerRegistry.Proofs.Operations

/-!
# References are conserved

The count of an object is the number of references to it: those the host holds,
those of handles that are held or in hand, and those that an assignment lost.
What the host holds is what it began with and what changed hands since.
-/

namespace ListenerRegistry

/-! ## Dealings -/

open World

theorem Deal.length {w w' : World} {hs hs' : List Handle} (h : Deal w hs w' hs') :
    w'.objects.length = w.objects.length := by
  cases h with
  | move alike => exact alike.length
  | hash | takeBack | recover => rfl
  | _ => simp

/-- Only the end of an assignment loses a reference. -/
theorem Deal.abandoned {w w' : World} {hs hs' : List Handle} (h : Deal w hs w' hs')
    (o : ObjectId) : w'.transfers .abandoned o = w.transfers .abandoned o := by
  cases h with
  | move alike => exact alike.transfers _ o
  | takeOver p ht =>
    rcases ht with rfl | rfl <;> exact transfers_transfer _ p _ o
  | surrender p | recover p | takeBack p => exact transfers_transfer _ p _ o
  | hostAcquire p | share p => simp [transfers_takeOne, transfers_transfer]
  | _ => simp

/-- **A dealing creates no reference and loses none**: the count of an object
changes by what the host gets and by the handles that there are more. -/
theorem Deal.balanced {w w' : World} {hs hs' : List Handle} (h : Deal w hs w' hs') {o : ObjectId}
    (ho : o < w.objects.length) :
    w'.count o - w'.external o - w'.held o - hs'.count (some o) =
      w.count o - w.external o - w.held o - hs.count (some o) := by
  cases h with
  | move alike same =>
    have := same o
    rw [alike.count, alike.external]
    omega
  | acquire p _ =>
    by_cases hp : p = o
    · subst hp
      simp [count_acquire p ho]
      omega
    · simp [count_acquire p ho, hp]
  | release p =>
    by_cases hp : p = o
    · subst hp
      simp [count_relinquish p ho]
      omega
    · simp [count_relinquish p ho, hp]
  | hash p _ => simp
  | surrender p | recover p | takeBack p _ =>
    by_cases hp : p = o
    · subst hp
      simp [external_transfer, Transfer.credit]
      omega
    · simp [external_transfer, hp]
  | takeOver p ht =>
    by_cases hp : p = o
    · subst hp
      rcases ht with rfl | rfl <;> simp [external_transfer, Transfer.credit] <;> omega
    · simp [external_transfer, hp]
  | hostAcquire p _ =>
    have hlt : o < (w.setCustody p (w.custody p).gain).objects.length := by simpa using ho
    rw [count_takeOne p hlt, external_takeOne, held_takeOne, count_setCustody, external_setCustody,
      held_setCustody]
    omega
  | share p _ =>
    by_cases hp : p = o
    · subst hp
      simp [count_takeOne p ho, external_takeOne, external_transfer, Transfer.credit]
      omega
    · simp [count_takeOne p ho, external_takeOne, external_transfer, hp]

/-- The count of every object is the number of references to it: what the host
began with and what it got since, what was lost, and the handles. -/
structure World.Balanced (objects : List ForeignObject) (w : World) (hs : List Handle) : Prop where
  length : w.objects.length = objects.length
  count : ∀ o < objects.length, w.count o =
    (init objects).count o + w.external o + w.transfers .abandoned o + w.held o + hs.count (some o)

theorem World.balanced_init (objects : List ForeignObject) :
    (init objects).Balanced objects [] where
  length := rfl
  count o _ := by
    have htransfers (t : Transfer) : (init objects).transfers t o = 0 := rfl
    simp [external_eq, htransfers, held_init]

theorem World.Balanced.deal {objects : List ForeignObject} {w w' : World} {hs hs' : List Handle}
    (hw : w.Balanced objects hs) (h : Deal w hs w' hs') : w'.Balanced objects hs' where
  length := h.length.trans hw.length
  count o ho := by
    have hbefore := hw.count o ho
    have hbalanced := h.balanced (o := o) (by rw [hw.length]; exact ho)
    rw [h.abandoned]
    omega

theorem World.Balanced.abandon {objects : List ForeignObject} {w : World} {hs : List Handle}
    {p : ObjectId} (hw : w.Balanced objects (some p :: hs)) :
    (w.transfer .abandoned p).Balanced objects hs where
  length := hw.length
  count o ho := by
    have hbefore := hw.count o ho
    by_cases hp : p = o
    · subst hp
      simp [external_transfer, transfers_transfer, Transfer.credit] at hbefore ⊢
      omega
    · simpa [external_transfer, transfers_transfer, hp] using hbefore

namespace Machine

theorem Run.balanced {objects : List ForeignObject} {steps : List Step} {ms : List Machine}
    {m : Machine} (h : Run (session objects steps) ms m) :
    ∀ a ∈ m :: ms, a.world.Balanced objects a.hands :=
  h.preserves_deals (P := World.Balanced objects) (fun hw hd => hw.deal hd) (fun hw => hw.abandon)
    (World.balanced_init objects)

/-- The machine is about to perform an assignment. -/
def assigns (m : Machine) : Bool :=
  match m.jobs with
  | .perform (.op (.handle (.assign _ _))) :: _ => true
  | _ => false

/-- No assignment is under way. -/
def Settled (m : Machine) : Prop := ∀ u ∈ m.jobs, ∀ r new, u ≠ .install r new

theorem Turn.settled {a b : Machine} (h : Turn a b) (hw : a.world.Consistent)
    (hassign : a.assigns = false) (ha : a.Settled) : b.Settled := by
  obtain ⟨w, t, rest, rfl, ⟨f, -, rfl⟩ | ⟨t', out, w', above, ht', hrun, -, habove, rfl⟩⟩ := h.inv
  · exact ha
  have hnot : ∀ r src, t' ≠ .perform (.op (.handle (.assign r src))) := by
    rintro r src rfl
    rcases ht' with rfl | ⟨s, rule, -, -, ht'⟩
    · cases hassign
    · cases ht'
  intro u hu r new
  simp only [List.mem_append] at hu
  -- foreign code, what the job left to do, and what was waiting below it
  rcases hu with hu | hu | hu
  · exact (Job.ordinary_of_foreign (habove u hu)).2 r new
  · exact Job.settled_run hw hrun hnot u hu r new
  · exact ha u (List.mem_cons_of_mem _ hu) r new

theorem Turn.abandoned {a b : Machine} (h : Turn a b) (hw : a.world.Consistent) (ha : a.Settled)
    (o : ObjectId) : b.world.transfers .abandoned o = a.world.transfers .abandoned o := by
  have hdeals := h.deals hw fun r new rest hjobs => ha (.install r new) (by simp [hjobs]) r new rfl
  exact hdeals.preserves (P := fun w _ => w.transfers .abandoned o = a.world.transfers .abandoned o)
    (fun hw hd => (hd.abandoned o).trans hw) rfl

/-- Without assignments nothing is lost. -/
theorem Run.abandoned {objects : List ForeignObject} {steps : List Step} {ms : List Machine}
    {m : Machine} (h : Run (session objects steps) ms m) (hms : ∀ b ∈ ms, b.assigns = false)
    (o : ObjectId) : ∀ a ∈ m :: ms, a.world.transfers .abandoned o = 0 := by
  have hsettled : (session objects steps).Settled := by
    intro u hu r new
    obtain ⟨s, -, rfl⟩ := List.mem_map.1 hu
    exact Job.noConfusion
  obtain ⟨hm, hall⟩ := h.preserves_of
    (P := fun a => a.world.Consistent ∧ a.Settled ∧ a.world.transfers .abandoned o = 0)
    (fun _ _ ha hok hab => ⟨hab.consistent ha.1, hab.settled ha.1 hok ha.2.1,
      (hab.abandoned ha.1 ha.2.1 o).trans ha.2.2⟩)
    hms ⟨World.consistent_init objects, hsettled, rfl⟩
  rintro a (_ | ⟨_, ha⟩)
  · exact hm.2.2
  · exact (hall a ha).2.2

theorem inFlight_of_foreign {a : Machine} (h : ∀ u ∈ a.jobs, Job.Foreign u) (o : ObjectId) :
    a.inFlight o = 0 := by
  have hnone : a.hands = [] := List.flatMap_eq_nil_iff.2 fun u hu => Job.hands_of_foreign (h u hu)
  rw [inFlight, hnone]
  rfl

/-- **References are conserved.** Wherever a turn starts or a run ends, and so at
every boundary of an operation and whenever a hook is entered, the count of an
object is what it was in the beginning, plus what the host acquired, minus what it
released, plus the handles that were surrendered to it, minus the references that
were adopted from it, plus the handles that are held or in flight. Assignments
alone may lose handles besides. Between operations nothing is in flight. -/
theorem references_conserved {objects : List ForeignObject} {steps : List Step} {ms : List Machine}
    {m : Machine} (h : Run (session objects steps) ms m) :
    ∀ a ∈ m :: ms, ∀ o < objects.length,
      a.world.count o = (World.init objects).count o +
          a.world.transfers .hostAcquired o - a.world.transfers .hostReleased o +
          a.world.transfers .surrendered o - a.world.transfers .adopted o +
          a.world.held o + a.inFlight o + a.world.transfers .abandoned o ∧
        ((∀ b ∈ ms, b.assigns = false) → a.world.transfers .abandoned o = 0) ∧
        ((∀ u ∈ a.jobs, Job.Foreign u) → a.inFlight o = 0) := by
  intro a ha o ho
  have hcount := (h.balanced a ha).count o ho
  rw [external_eq] at hcount
  refine ⟨?_, fun hms => h.abandoned hms o a ha, fun hjobs => inFlight_of_foreign hjobs o⟩
  simp only [inFlight]
  omega

/-- In a meeting nothing is assigned, so that nothing is lost. The first object
is in flight when its hash function is entered. -/
theorem references_conserved_in_meeting :
    (∀ a ∈ visited meeting 67 (session meetingObjects meetingSteps), ∀ o < 2,
      a.world.count o = 1 +
        a.world.transfers .hostAcquired o - a.world.transfers .hostReleased o +
        a.world.transfers .surrendered o - a.world.transfers .adopted o +
        a.world.held o + a.inFlight o) ∧
    ((session meetingObjects meetingSteps).turns meeting 2).inFlight 0 = 1 := by
  refine ⟨fun a ha o ho => ?_, by decide +kernel⟩
  have hrun := run_visited meeting 67 (session meetingObjects meetingSteps)
  obtain ⟨hcount, hlost, -⟩ := references_conserved hrun a (List.mem_cons_of_mem _ ha) o ho
  have hnone := hlost (by decide +kernel)
  have hinit : ∀ o < 2, (World.init meetingObjects).count o = 1 := by decide
  have := hinit o ho
  omega

end Machine

end ListenerRegistry
