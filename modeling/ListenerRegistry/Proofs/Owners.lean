import ListenerRegistry.Proofs.Survival

/-!
# Handles count like owners

A host that keeps account of its references gives away none that it has not got. So
what it gives away is always legitimate, the count of an object is the number of those
who hold a reference on it, and the object is destroyed when the last of them lets go.
The holders are the owner, the raw references, the owners that were recovered and are
kept aside, and the handles.
-/

namespace ListenerRegistry

open World

/-! ## Accounts -/

namespace Custody

/-- The raw references in an account. -/
def raw : Custody → Nat
  | unaccounted => 0
  | accounted _ raw => raw

theorem booked_eq (c : Custody) : c.booked = c.hasOwner.toNat + c.raw := by
  cases c with
  | unaccounted => rfl
  | accounted owner raw => cases owner <;> rfl

end Custody

namespace Journal

theorem external_cons_transfer (t : Transfer) (p : ObjectId) (j : List Event) (o : ObjectId) :
    external (.transfer t p :: j) o = external j o + if p = o then t.credit else 0 := by
  unfold external transfers
  by_cases hp : p = o
  · cases t <;> simp [Event.isTransfer, hp, Transfer.credit] <;> omega
  · simp [Event.isTransfer, hp]

end Journal

/-! ## Values -/

namespace World

variable {w : World}

@[simp] theorem value_adjust (p : ObjectId) (d : Int) (o : ObjectId) :
    (w.adjust p d).value o = w.value o :=
  value_modifyObject (f := fun x => { x with refs := x.refs + d }) (fun _ => rfl) p o

@[simp] theorem value_acquire (h : Handle) (o : ObjectId) : (w.acquire h).value o = w.value o := by
  cases h with
  | none => rfl
  | some p => exact value_adjust p 1 o

@[simp] theorem value_relinquish (p o : ObjectId) : (w.relinquish p).value o = w.value o := by
  simp only [relinquish]
  split <;> exact value_adjust p (-1) o

@[simp] theorem value_setCustody (p : ObjectId) (c : Custody) (o : ObjectId) :
    (w.setCustody p c).value o = w.value o :=
  value_modifyObject (f := fun x => { x with custody := c }) (fun _ => rfl) p o

@[simp] theorem value_transfer (t : Transfer) (p o : ObjectId) :
    (w.transfer t p).value o = w.value o := rfl

@[simp] theorem value_takeOne (p o : ObjectId) : (HostOp.takeOne w p).value o = w.value o :=
  value_acquire (w := w.transfer .hostAcquired p) (some p) o

end World

/-! ## What a dealing does -/

section

variable {w w' : World} {hs hs' : List Handle} {o : ObjectId}

/-- A reference that the host acquires is noted before it is counted, and one that it
gives away after it was counted. So in the middle of a dealing the host has no fewer
references than before it or after it. -/
theorem Deal.external_le (h : Deal w hs w' hs') {j : List Event} (hj : j <:+ w'.ledger)
    (o : ObjectId) :
    j <:+ w.ledger ∨ w.external o ≤ Journal.external j o ∨ w'.external o ≤ Journal.external j o := by
  -- the whole ledger tells of all that has happened
  have hend (hj : j = w'.ledger) :
      w.external o ≤ Journal.external j o ∨ w'.external o ≤ Journal.external j o := by
    rw [hj, ← external_eq_ledger]
    exact Or.inr (Int.le_refl _)
  have hacquired (p : ObjectId) :
      w.external o ≤ Journal.external (.transfer .hostAcquired p :: w.ledger) o := by
    rw [external_eq_ledger, Journal.external_cons_transfer, Transfer.credit]
    split <;> omega
  cases h with
  | move alike =>
    rw [alike.ledger] at hj
    exact Or.inl hj
  | release p =>
    rw [ledger_relinquish] at hj hend
    split at hj <;> rename_i hzero
    · rw [if_pos hzero] at hend
      rcases List.suffix_cons_iff.1 hj with hj | hj
      · exact Or.inr (hend hj)
      rcases List.suffix_cons_iff.1 hj with rfl | hj
      · rw [external_eq_ledger w]
        exact Or.inr (Or.inl (Int.le_refl _))
      · exact Or.inl hj
    · rw [if_neg hzero] at hend
      rcases List.suffix_cons_iff.1 hj with hj | hj
      · exact Or.inr (hend hj)
      · exact Or.inl hj
  | hostAcquire p _ =>
    rcases List.suffix_cons_iff.1 hj with hj | hj
    · exact Or.inr (hend hj)
    rcases List.suffix_cons_iff.1 hj with rfl | hj
    · exact Or.inr (Or.inl (hacquired p))
    · exact Or.inl hj
  | share p _ =>
    rcases List.suffix_cons_iff.1 hj with hj | hj
    · exact Or.inr (hend hj)
    rcases List.suffix_cons_iff.1 hj with rfl | hj
    · refine Or.inr (Or.inl ?_)
      exact hacquired p
    rcases List.suffix_cons_iff.1 hj with rfl | hj
    · exact Or.inr (Or.inl (hacquired p))
    · exact Or.inl hj
  | _ =>
    rcases List.suffix_cons_iff.1 hj with hj | hj
    · exact Or.inr (hend hj)
    · exact Or.inl hj

/-- A dealing changes the value of no object. -/
theorem Deal.value (h : Deal w hs w' hs') (o : ObjectId) : w'.value o = w.value o := by
  cases h with
  | move alike => exact alike.value o
  | hash | recover | takeBack => rfl
  | _ => simp

/-- Only the release of the last reference brings a count down to zero, and that
finalizes the object. -/
theorem Deal.count_pos (h : Deal w hs w' hs') (ho : o < w.objects.length) (hpos : 0 < w.count o) :
    0 < w'.count o ∨ 0 < Journal.collections w'.ledger o := by
  cases h with
  | move alike => exact Or.inl (alike.count o ▸ hpos)
  | acquire p _ =>
    refine Or.inl ?_
    rw [count_acquire p ho]
    split <;> omega
  | release p =>
    have hcount := count_relinquish p ho
    by_cases hp : p = o
    · subst hp
      rw [ledger_relinquish]
      split
      · refine Or.inr ?_
        rw [Journal.collections_cons, Event.collects, beq_self_eq_true, if_pos rfl]
        omega
      · rename_i hsome
        rw [if_pos rfl] at hcount
        exact Or.inl (by omega)
    · rw [if_neg hp] at hcount
      exact Or.inl (by omega)
  | hash | recover | takeBack => exact Or.inl hpos
  | surrender p | takeOver p => exact Or.inl (by simpa using hpos)
  | hostAcquire p _ =>
    refine Or.inl ?_
    have hlt : o < (w.setCustody p (w.custody p).gain).objects.length := by simpa using ho
    rw [count_takeOne p hlt, count_setCustody]
    split <;> omega
  | share p _ =>
    refine Or.inl ?_
    rw [count_transfer, count_takeOne p ho]
    split <;> omega

end

/-! ## Hosts that keep account -/

/-- The host keeps account of every object, and has exactly the references it keeps
account of; it never gave away more, and an object that nobody refers to was
finalized. -/
structure World.Audited (objects : List ForeignObject) (w : World) (hs : List Handle) : Prop where
  sane : w.Sane objects hs
  legitimate : Journal.Legitimate objects w.ledger
  accounted : ∀ o < objects.length, (w.custody o).isAccounted = true
  booked : ∀ o < objects.length, (w.booked o : Int) = (init objects).count o + w.external o
  ended : ∀ o < objects.length, 0 < w.count o ∨ 0 < Journal.collections w.ledger o
  value : ∀ o, w.value o = (init objects).value o

namespace World.Audited

variable {objects : List ForeignObject} {w w' : World} {hs hs' : List Handle} {o : ObjectId}

theorem length (h : w.Audited objects hs) : w.objects.length = objects.length :=
  h.sane.balanced.length

/-- The count is the number of references that anybody holds. -/
theorem count (h : w.Audited objects hs) (ho : o < objects.length) :
    w.count o = w.booked o + w.held o + hs.count (some o) + w.transfers .abandoned o := by
  have hcount := h.sane.balanced.count o ho
  have hbooked := h.booked o ho
  omega

theorem deal (h : w.Audited objects hs) (hd : Deal w hs w' hs') : w'.Audited objects hs' := by
  have haccount (o : ObjectId) (ho : o < objects.length) :=
    hd.booked (h.length.symm ▸ ho)
  have hbooked (o : ObjectId) (ho : o < objects.length) :
      (w'.booked o : Int) = (init objects).count o + w'.external o := by
    have hbefore := h.booked o ho
    have hsame := (haccount o ho).2 (h.accounted o ho)
    omega
  -- the host never has less than nothing, before, after or in the middle
  have hlegitimate : Journal.Legitimate objects w'.ledger := by
    intro j hj o ho
    have hbefore := h.booked o ho
    have hafter := hbooked o ho
    rcases hd.external_le hj o with hj | hle | hle
    · exact h.legitimate j hj o ho
    · omega
    · omega
  refine ⟨h.sane.deal hd hlegitimate, hlegitimate, fun o ho => ?_, hbooked, fun o ho => ?_,
    fun o => (hd.value o).trans (h.value o)⟩
  · rw [(haccount o ho).1]
    exact h.accounted o ho
  · rcases h.ended o ho with hpos | hdone
    · exact hd.count_pos (h.length.symm ▸ ho) hpos
    · have := hd.collections o
      exact Or.inr (by omega)

theorem abandon {p : ObjectId} (h : w.Audited objects (some p :: hs)) :
    (w.transfer .abandoned p).Audited objects hs := by
  have hexternal (o : ObjectId) : (w.transfer .abandoned p).external o = w.external o := by
    simp [external_transfer, Transfer.credit]
  refine ⟨h.sane.abandon, fun j hj o ho => ?_, h.accounted, fun o ho => ?_, fun o ho => ?_,
    fun o => h.value o⟩
  · rcases List.suffix_cons_iff.1 hj with rfl | hj
    · have hbooked := h.booked o ho
      show 0 ≤ (init objects).count o + Journal.external (w.transfer .abandoned p).ledger o
      rw [← external_eq_ledger, hexternal]
      omega
    · exact h.legitimate j hj o ho
  · rw [hexternal]
    exact h.booked o ho
  · simpa [Event.collects] using h.ended o ho

end World.Audited

/-- Objects that are held once each, by their owners. -/
def owners (values : List (UInt64 × String)) : List ForeignObject :=
  values.map fun v => .owned v.1 v.2

section

variable {values : List (UInt64 × String)} {o : ObjectId}

theorem getElem?_owners (ho : o < (owners values).length) :
    ∃ address value, values[o]? = some (address, value) ∧
      (World.init (owners values)).objects[o]? = some (.owned address value) := by
  have ho : o < values.length := by simpa [owners] using ho
  exact ⟨values[o].1, values[o].2, by simp [ho], by simp [World.init, owners, ho]⟩

theorem count_owners (ho : o < (owners values).length) :
    (World.init (owners values)).count o = 1 := by
  obtain ⟨address, value, -, hx⟩ := getElem?_owners ho
  rw [World.count, hx]
  rfl

theorem value_owners (ho : o < (owners values).length) :
    (values[o]?).map (·.2) = some ((World.init (owners values)).value o) := by
  obtain ⟨address, value, hv, hx⟩ := getElem?_owners ho
  rw [World.value, hx, hv]
  rfl

theorem World.audited_owners (values : List (UInt64 × String)) :
    (World.init (owners values)).Audited (owners values) [] := by
  have hexternal (o : ObjectId) : (World.init (owners values)).external o = 0 := rfl
  refine ⟨World.Sane.init fun x hx => ?_, fun j hj o ho => ?_, fun o ho => ?_, fun o ho => ?_,
    fun o ho => ?_, fun _ => rfl⟩
  · obtain ⟨v, -, rfl⟩ := List.mem_map.1 hx
    exact Int.le_refl _
  · obtain rfl : j = [] := List.suffix_nil.1 hj
    simp [count_owners ho, Journal.external, Journal.transfers]
  · obtain ⟨address, value, -, hx⟩ := getElem?_owners ho
    rw [custody, hx]
    rfl
  · obtain ⟨address, value, -, hx⟩ := getElem?_owners ho
    rw [count_owners ho, hexternal, World.booked, custody, hx]
    rfl
  · rw [count_owners ho]
    exact Or.inl (by decide)

end

namespace Machine

variable {values : List (UInt64 × String)} {steps : List Step} {ms : List Machine} {m : Machine}

/-- Those who hold a reference on `o`: its owner, the raw references of the host, the
recovered owners that are kept aside, and the handles that are held or in flight. -/
def holders (m : Machine) (o : ObjectId) : Nat :=
  (m.world.custody o).hasOwner.toNat + (m.world.custody o).raw + m.world.recovered.count o +
    m.world.held o + m.inFlight o

theorem Run.audited (h : Run (session (owners values) steps) ms m) :
    ∀ a ∈ m :: ms, a.world.Audited (owners values) a.hands :=
  h.preserves_deals (P := World.Audited (owners values)) (fun hw hd => hw.deal hd)
    (fun hw => hw.abandon) (World.audited_owners values)

/-- **An owner that is recovered from a handle is a live one, of the same object**: one
more reference is counted, which is kept aside or let go of. -/
theorem recover_eq {w : World} {r : Nat} {o : ObjectId} (hr : w.handle r = some o)
    (ho : o < w.objects.length) (keep : Bool) :
    ∃ out, (Job.perform (.op (.host (.recover r keep)))).run w = .ok out ∧
      out.world.count o = w.count o + 1 ∧ out.world.handle r = some o ∧
      if keep then out.world.recovered = o :: w.recovered ∧
        out.jobs = [.answer (.owner (w.value o) (w.count o + 1))]
      else out.world.recovered = w.recovered ∧
        out.jobs = [.release (some o), .answer (.owner (w.value o) (w.count o + 1))] := by
  have hcount : ((w.acquire (some o)).transfer .surrendered o).count o = w.count o + 1 := by
    rw [count_transfer, count_acquire o ho, if_pos rfl]
  have hvalue : (((w.acquire (some o)).transfer .surrendered o).objects[o]?).elim ""
      ForeignObject.value = w.value o := value_acquire (some o) o
  cases keep with
  | true =>
    refine ⟨_, by simp only [Job.run, Op.run, HostOp.run, hr]; rfl, ?_⟩
    simp only [hcount, hvalue, if_true]
    exact ⟨hcount, hr, rfl, rfl⟩
  | false =>
    refine ⟨_, by simp only [Job.run, Op.run, HostOp.run, hr]; rfl, ?_⟩
    simp only [hcount, hvalue]
    exact ⟨hcount, hr, rfl, rfl⟩

/-- **Handles count like owners.** If every object is held by its owner in the
beginning, then at every turn, and whatever the finalizers do, the count of an object
is the number of those who hold a reference on it: its owner, the raw references that
the host was handed and has not given back, the recovered owners, and the handles.
The object is finalized once, and exactly when the last of them has gone. An owner
that is recovered from a handle is a live one, of the same object and with its value.
An assignment may lose a handle, which then counts for ever. -/
theorem handles_count_like_owners (h : Run (session (owners values) steps) ms m) :
    ∀ a ∈ m :: ms,
      (∀ o < values.length,
        a.world.count o = a.holders o + a.world.transfers .abandoned o ∧
        ((∀ b ∈ ms, b.assigns = false) → a.world.transfers .abandoned o = 0) ∧
        Journal.collections a.world.journal o =
          if a.holders o + a.world.transfers .abandoned o = 0 then 1 else 0) ∧
      (∀ o, 0 < a.world.held o + a.inFlight o → o < values.length) ∧
      ∀ r keep o, a.world.handle r = some o →
        ∃ address value out, values[o]? = some (address, value) ∧
          (Job.perform (.op (.host (.recover r keep)))).run a.world = .ok out ∧
          2 ≤ out.world.count o ∧ out.world.handle r = some o ∧
          if keep then out.world.recovered = o :: a.world.recovered ∧
            out.jobs = [.answer (.owner value (out.world.count o))]
          else out.world.recovered = a.world.recovered ∧
            out.jobs = [.release (some o), .answer (.owner value (out.world.count o))] := by
  intro a ha
  have haudit := h.audited a ha
  have hlength : (owners values).length = values.length := List.length_map _
  have hexists (o : ObjectId) (ho : 0 < a.world.held o + a.inFlight o) :=
    haudit.sane.count_of_handle haudit.legitimate (o := o) ho
  refine ⟨fun o ho => ?_, fun o ho => hlength ▸ (hexists o ho).1, fun r keep o hr => ?_⟩
  · rw [← hlength] at ho
    have hcount : a.world.count o = a.holders o + a.world.transfers .abandoned o := by
      have := haudit.count ho
      rw [World.booked, Custody.booked_eq] at this
      rw [holders, inFlight]
      omega
    refine ⟨hcount, fun hms => h.abandoned hms o a ha, ?_⟩
    have hone := haudit.sane.once o
    have hgone := haudit.sane.gone o
    have hended := haudit.ended o ho
    rw [← Journal.collections_filter, ← ledger]
    split <;> omega
  · have hheld := held_of_handle hr
    obtain ⟨ho, hpos⟩ := hexists o (by omega)
    obtain ⟨address, value, hv, -⟩ := getElem?_owners ho
    obtain ⟨out, hrun, hcount, hhandle, hkept⟩ :=
      recover_eq hr (haudit.length.symm ▸ ho) keep
    have hvalue : a.world.value o = value := by
      have hinit := value_owners ho
      rw [hv] at hinit
      rw [haudit.value]
      exact (Option.some.inj hinit).symm
    rw [← hcount, hvalue] at hkept
    exact ⟨address, value, out, hv, hrun, by omega, hhandle, hkept⟩

/-- The finalizer of the first object registers the second one, whose owner it drops. -/
def estate : Program :=
  ⟨[⟨none, some [.op (.registry (.insert 0 (.fresh (some 1)) none)), .op (.host (.dropOwner 1))]⟩]⟩

/-- References on the first object pass through every kind of hands: a second owner, a
listener, the owner's own reference, a raw one, a recovered owner and a key. -/
def estateSteps : List Step :=
  [.op (.host (.share 0 0)), .op (.registry (.insert 0 (.copied 0) none)), .op (.host (.give 1 0)),
    .op (.handle (.surrender 1)), .op (.handle (.adopt 1 (some 0))), .op (.host (.recover 1 true)),
    .op (.key (.make 0 (.taken 1))), .op (.keySet (.insert 0)), .op (.registry (.clear 0)),
    .op (.keySet .drain), .op (.handle (.drop 0)), .op (.host .dropRecovered),
    .op (.registry (.clear 0))]

/-- The first object dies with its last reference, that of a recovered owner, and the
second one when the registry is emptied. -/
theorem handles_count_like_owners_in_estate :
    (∀ a ∈ visited estate 49 (session (owners [(0x1000, "a"), (0x2000, "b")]) estateSteps),
      ∀ o < 2, a.world.count o = a.holders o) ∧
    ((session (owners [(0x1000, "a"), (0x2000, "b")]) estateSteps).turns estate 16).holders 0 = 4 ∧
    ((session (owners [(0x1000, "a"), (0x2000, "b")]) estateSteps).turns estate 49).holders 0 = 0 ∧
    ∀ o < 2, Journal.collections ((session (owners [(0x1000, "a"), (0x2000, "b")])
      estateSteps).turns estate 49).world.journal o = 1 := by
  have h := handles_count_like_owners
    (run_visited estate 49 (session (owners [(0x1000, "a"), (0x2000, "b")]) estateSteps))
  refine ⟨fun a ha o ho => ?_, by decide +kernel, by decide +kernel, by decide +kernel⟩
  obtain ⟨hcount, hlost, -⟩ := (h a (List.mem_cons_of_mem _ ha)).1 o ho
  rw [hcount, hlost (by decide +kernel), Int.natCast_zero, Int.add_zero]

end Machine

end ListenerRegistry
