import ListenerRegistry.Proofs.Conservation

/-!
# No object is used after its last reference is gone

As long as the host gives away no more references than it has, every object that
a handle refers to has a positive count. So whatever the library calls is called
on an object that is alive, an object is collected at most once, and nothing
brings it back afterwards.
-/

namespace ListenerRegistry

open World

/-! ## What a dealing does -/

/-- A handle in hand vouches for its object. -/
theorem World.vouches_hand (w : World) (o : ObjectId) (hs : List Handle) :
    w.Vouches (some o :: hs) o := by
  rw [Vouches, List.count_cons_self]
  omega

variable {w w' : World} {hs hs' : List Handle}

theorem Deal.ledger_suffix (h : Deal w hs w' hs') : w.ledger <:+ w'.ledger := by
  cases h with
  | move alike => rw [alike.ledger]
  | release p =>
    rw [ledger_relinquish]
    split
    · exact (List.suffix_cons _ _).trans (List.suffix_cons _ _)
    · exact List.suffix_cons _ _
  | hostAcquire p _ => exact (List.suffix_cons _ _).trans (List.suffix_cons _ _)
  | share p _ =>
    exact (List.suffix_cons _ _).trans ((List.suffix_cons _ _).trans (List.suffix_cons _ _))
  | _ => exact List.suffix_cons _ _

/-- The ledger tells the counts. -/
theorem Deal.counted (h : Deal w hs w' hs') {o : ObjectId} (ho : o < w.objects.length) :
    w'.count o - Journal.net w'.ledger o = w.count o - Journal.net w.ledger o := by
  cases h with
  | move alike => rw [alike.count, alike.ledger]
  | acquire p _ =>
    rw [count_acquire p ho, ledger_acquire, Journal.net_cons, Event.change]
    omega
  | release p =>
    rw [count_relinquish p ho, net_relinquish]
    omega
  | hash p _ => simp [Event.change]
  | surrender p | recover p | takeBack p => simp [Event.change]
  | takeOver p => simp [Event.change]
  | hostAcquire p _ =>
    have hlt : o < (w.setCustody p (w.custody p).gain).objects.length := by simpa using ho
    simp [count_takeOne p hlt, Event.change]
    omega
  | share p _ =>
    simp [count_takeOne p ho, Event.change]
    omega

/-- The count of an object changes only if there is reason to believe that the
object is alive. -/
theorem Deal.count_eq_or_vouches (h : Deal w hs w' hs') (o : ObjectId) :
    w'.count o = w.count o ∨ w.Vouches hs o := by
  by_cases ho : o < w.objects.length
  · cases h with
    | move alike => exact Or.inl (alike.count o)
    | acquire p hv =>
      by_cases hp : p = o
      · subst hp
        exact Or.inr hv
      · exact Or.inl (by simp [count_acquire p ho, hp])
    | release p =>
      by_cases hp : p = o
      · subst hp
        exact Or.inr (vouches_hand w _ _)
      · exact Or.inl (by simp [count_relinquish p ho, hp])
    | hash | surrender | recover | takeOver | takeBack => exact Or.inl (by simp)
    | hostAcquire p halive =>
      have hlt : o < (w.setCustody p (w.custody p).gain).objects.length := by simpa using ho
      by_cases hp : p = o
      · subst hp
        exact Or.inr (Or.inl halive)
      · exact Or.inl (by simp [count_takeOne p hlt, hp])
    | share p howner =>
      by_cases hp : p = o
      · subst hp
        exact Or.inr (Or.inr (Or.inr howner))
      · exact Or.inl (by simp [count_takeOne p ho, hp])
  · have hle := Nat.le_of_not_lt ho
    exact Or.inl ((count_of_length_le (h.length.symm ▸ hle)).trans (count_of_length_le hle).symm)

/-- A dealing calls nothing but what there is reason to believe alive. -/
theorem Deal.lawful {objects : List ForeignObject} (h : Deal w hs w' hs')
    (hv : ∀ o, w.Vouches hs o → o < objects.length ∧ 1 ≤ Journal.countAfter objects w.ledger o)
    (hw : Journal.Lawful objects w.ledger) : Journal.Lawful objects w'.ledger := by
  have hcall {e : Event} {p : ObjectId} (hp : w.Vouches hs p)
      (he : ∀ o, e.calls o = true → p = o) : Journal.Lawful objects (e :: w.ledger) :=
    ⟨fun o ho => he o ho ▸ hv p hp, hw⟩
  have hquiet {e : Event} {j : List Event} (he : ∀ o, e.calls o = false)
      (hj : Journal.Lawful objects j) : Journal.Lawful objects (e :: j) :=
    ⟨fun o ho => by simp [he] at ho, hj⟩
  have hacquired {p : ObjectId} (hp : w.Vouches hs p) : p < objects.length ∧
      1 ≤ Journal.countAfter objects (.transfer .hostAcquired p :: w.ledger) p := by
    simpa [Journal.countAfter, Event.change] using hv p hp
  cases h with
  | move alike => rwa [alike.ledger]
  | acquire p hp => exact hcall hp fun o ho => by simpa [Event.calls] using ho
  | release p =>
    have hdecref : Journal.Lawful objects (.decref p :: w.ledger) :=
      hcall (vouches_hand w p _) fun o ho => by simpa [Event.calls] using ho
    rw [ledger_relinquish]
    split
    · exact hquiet (fun _ => rfl) hdecref
    · exact hdecref
  | hash p hp => exact hcall hp fun o ho => by simpa [Event.calls] using ho
  | surrender | recover | takeOver | takeBack => exact hquiet (fun _ => rfl) hw
  | hostAcquire p halive =>
    refine ⟨fun o ho => ?_, hquiet (fun _ => rfl) hw⟩
    obtain rfl : p = o := by simpa [Event.calls] using ho
    exact hacquired (Or.inl halive)
  | share p howner =>
    refine hquiet (fun _ => rfl) ⟨fun o ho => ?_, hquiet (fun _ => rfl) hw⟩
    obtain rfl : p = o := by simpa [Event.calls] using ho
    exact hacquired (Or.inr (Or.inr howner))

/-- A dealing finalizes only an object that a handle was on, and only when its
count is zero. -/
theorem Deal.collections (h : Deal w hs w' hs') (o : ObjectId) :
    Journal.collections w'.ledger o = Journal.collections w.ledger o ∨
      (Journal.collections w'.ledger o = Journal.collections w.ledger o + 1 ∧
        0 < hs.count (some o) ∧ w'.count o = 0) := by
  cases h with
  | move alike => exact Or.inl (by rw [alike.ledger])
  | release p =>
    rw [ledger_relinquish]
    split
    · rename_i hzero
      by_cases hp : p = o
      · subst hp
        exact Or.inr ⟨by simp [Event.collects], by simp, hzero⟩
      · exact Or.inl (by simp [Event.collects, hp])
    · exact Or.inl (by simp [Event.collects])
  | _ => exact Or.inl (by simp [Event.collects])

/-- Handles come only on an object that there is reason to believe alive, or
whose owner was kept aside. -/
theorem Deal.handles_le (h : Deal w hs w' hs') (o : ObjectId) :
    w'.held o + hs'.count (some o) ≤ w.held o + hs.count (some o) ∨ w.Vouches hs o ∨
      o ∈ w.recovered := by
  cases h with
  | move alike same => exact Or.inl (same o).le
  | acquire p hv =>
    by_cases hp : p = o
    · subst hp
      exact Or.inr (Or.inl hv)
    · exact Or.inl (by simp [hp])
  | release p => exact Or.inl (by simp [List.count_cons])
  | surrender p | recover p => exact Or.inl (by simp [List.count_cons])
  | hash => exact Or.inl (by simp)
  | takeOver p _ hv =>
    by_cases hp : p = o
    · subst hp
      exact Or.inr (Or.inl (hv.imp_right Or.inr))
    · exact Or.inl (by simp [hp])
  | takeBack p hrecovered =>
    by_cases hp : p = o
    · subst hp
      exact Or.inr (Or.inr (by simp [hrecovered]))
    · exact Or.inl (by simp [hp])
  | hostAcquire p _ => exact Or.inl (by simp)
  | share p howner =>
    by_cases hp : p = o
    · subst hp
      exact Or.inr (Or.inl (Or.inr (Or.inr howner)))
    · exact Or.inl (by simp [hp])

theorem Deal.recovered (h : Deal w hs w' hs') {o : ObjectId} (ho : o ∈ w'.recovered) :
    o ∈ w.recovered ∨ w.Vouches hs o := by
  cases h with
  | move alike => exact Or.inl (alike.recovered ▸ ho)
  | recover p =>
    rcases List.mem_cons.1 ho with rfl | ho
    · exact Or.inr (vouches_hand w _ _)
    · exact Or.inl ho
  | takeBack p hrecovered => exact Or.inl (hrecovered ▸ List.mem_cons_of_mem _ ho)
  | release p =>
    refine Or.inl ?_
    simp only [relinquish] at ho
    split at ho <;> exact ho
  | _ => exact Or.inl ho

/-- Where the host keeps account, the account follows what changes hands. -/
theorem Deal.booked (h : Deal w hs w' hs') {o : ObjectId} (ho : o < w.objects.length) :
    (w'.custody o).isAccounted = (w.custody o).isAccounted ∧
      ((w.custody o).isAccounted = true →
        w'.booked o - w'.external o = w.booked o - w.external o) := by
  cases h with
  | move alike =>
    rw [World.booked, World.booked, alike.custody, alike.recovered, alike.external]
    exact ⟨rfl, fun _ => rfl⟩
  | acquire | release | hash => simp [World.booked]
  | surrender p =>
    by_cases hp : p = o
    · subst hp
      refine ⟨by simp [custody_setCustody p _ ho], fun hacc => ?_⟩
      simp [World.booked, custody_setCustody p _ ho, Custody.booked_gain hacc, external_transfer,
        Transfer.credit]
      omega
    · simp [World.booked, custody_setCustody p _ ho, external_transfer, hp]
  | recover p =>
    by_cases hp : p = o
    · subst hp
      refine ⟨by simp, fun hacc => ?_⟩
      simp [World.booked, external_transfer, Transfer.credit]
      omega
    · simp [World.booked, external_transfer, hp]
  | @takeOver _ p t c ht hv hc =>
    have hcredit : t.credit = -1 := by rcases ht with rfl | rfl <;> rfl
    by_cases hp : p = o
    · subst hp
      refine ⟨by simp [custody_setCustody p _ ho, hc.1], fun hacc => ?_⟩
      have := hc.2 hacc
      simp [World.booked, custody_setCustody p _ ho, external_transfer, hcredit]
      omega
    · simp [World.booked, custody_setCustody p _ ho, external_transfer, hp]
  | takeBack p hrecovered =>
    by_cases hp : p = o
    · subst hp
      refine ⟨by simp, fun hacc => ?_⟩
      simp [World.booked, external_transfer, Transfer.credit, hrecovered]
      omega
    · simp [World.booked, external_transfer, hrecovered, hp]
  | hostAcquire p halive =>
    by_cases hp : p = o
    · subst hp
      refine ⟨by simp [custody_setCustody p _ ho], fun hacc => ?_⟩
      simp [World.booked, custody_setCustody p _ ho, Custody.booked_gain hacc, external_takeOne]
      omega
    · simp [World.booked, custody_setCustody p _ ho, external_takeOne, hp]
  | share p howner =>
    by_cases hp : p = o
    · subst hp
      refine ⟨by simp, fun _ => ?_⟩
      simp [World.booked, external_takeOne, external_transfer, Transfer.credit]
    · simp [World.booked, external_takeOne, external_transfer, hp]

/-! ## What holds throughout -/

/-- The counts agree with the references and with the ledger; every call was on
an object that was alive; nobody refers to an object that does not exist; the
host has the references that it keeps account of; and an object that was
finalized is gone. -/
structure World.Sane (objects : List ForeignObject) (w : World) (hs : List Handle) : Prop where
  balanced : w.Balanced objects hs
  counted : ∀ o < objects.length, w.count o = Journal.countAfter objects w.ledger o
  lawful : Journal.Lawful objects w.ledger
  strange : ∀ o, objects.length ≤ o → w.held o + hs.count (some o) = 0
  recovered : ∀ o ∈ w.recovered, o < objects.length
  booked : ∀ o, (w.custody o).isAccounted = true →
    (w.booked o : Int) ≤ (init objects).count o + w.external o
  gone : ∀ o, 0 < Journal.collections w.ledger o → w.count o = 0
  once : ∀ o, Journal.collections w.ledger o ≤ 1

namespace World.Sane

variable {objects : List ForeignObject} {w w' : World} {hs hs' : List Handle} {o : ObjectId}

/-- An object that a handle is on is alive. -/
theorem count_of_handle (h : w.Sane objects hs) (hl : Journal.Legitimate objects w.ledger)
    (ho : 0 < w.held o + hs.count (some o)) : o < objects.length ∧ 1 ≤ w.count o := by
  have hlt : o < objects.length := by
    refine Nat.lt_of_not_le fun hle => ?_
    have := h.strange o hle
    omega
  have hcount := h.balanced.count o hlt
  have hext := hl w.ledger List.suffix_rfl o hlt
  rw [← external_eq_ledger] at hext
  exact ⟨hlt, by omega⟩

/-- What there is reason to believe alive is alive. -/
theorem count_of_vouches (h : w.Sane objects hs) (hl : Journal.Legitimate objects w.ledger)
    (hv : w.Vouches hs o) : o < objects.length ∧ 1 ≤ w.count o := by
  rcases hv with halive | hhandle | howner
  · have hpos : 0 < w.count o := by simpa [alive] using halive
    exact ⟨h.balanced.length ▸ lt_length_of_alive halive, hpos⟩
  · exact h.count_of_handle hl hhandle
  · obtain ⟨hacc, hbooked⟩ := Custody.isAccounted_of_hasOwner howner
    have hlt : o < objects.length := h.balanced.length ▸ lt_length_of_hasOwner howner
    have := h.booked o hacc
    have := h.balanced.count o hlt
    rw [World.booked] at *
    exact ⟨hlt, by omega⟩

/-- Every call in the journal was on an object that was alive. -/
theorem count_of_calls (h : w.Sane objects hs) {later earlier : List Event} {e : Event}
    (hj : w.journal = later ++ e :: earlier) (he : e.calls o = true) :
    o < objects.length ∧ 1 ≤ Journal.countAfter objects earlier o := by
  have hledger : w.ledger =
      later.filter Event.matters ++ e :: earlier.filter Event.matters := by
    rw [ledger, hj, List.filter_append, List.filter_cons_of_pos (Event.matters_of_calls he)]
  have hcall := (hledger ▸ h.lawful).of_append he
  rwa [Journal.countAfter, Journal.net_filter] at hcall

theorem deal (h : w.Sane objects hs) (hd : Deal w hs w' hs')
    (hl' : Journal.Legitimate objects w'.ledger) : w'.Sane objects hs' := by
  have hl := hl'.suffix hd.ledger_suffix
  have hv (o : ObjectId) (ho : w.Vouches hs o) := h.count_of_vouches hl ho
  have hzero (o : ObjectId) (ho : w.count o = 0) : w'.count o = 0 := by
    rcases hd.count_eq_or_vouches o with he | hvouches
    · exact he.trans ho
    · -- an object that is vouched for has a positive count
      have := hv o hvouches
      omega
  refine ⟨h.balanced.deal hd, fun o ho => ?_, ?_, fun o ho => ?_, fun o ho => ?_, fun o ho => ?_,
    fun o ho => ?_, fun o => ?_⟩
  · have := hd.counted (o := o) (by rw [h.balanced.length]; exact ho)
    have := h.counted o ho
    simp only [Journal.countAfter] at *
    omega
  · refine hd.lawful (fun o ho => ?_) h.lawful
    obtain ⟨hlt, hpos⟩ := hv o ho
    exact ⟨hlt, h.counted o hlt ▸ hpos⟩
  · -- a handle can come only on an object that exists
    have hnone := h.strange o ho
    rcases hd.handles_le o with hle | hvouches | hrecovered
    · omega
    · exact absurd (hv o hvouches).1 (Nat.not_lt.2 ho)
    · exact absurd (h.recovered o hrecovered) (Nat.not_lt.2 ho)
  · rcases hd.recovered ho with hrecovered | hvouches
    · exact h.recovered o hrecovered
    · exact (hv o hvouches).1
  · have hlt : o < w.objects.length := hd.length ▸ lt_length_of_accounted ho
    obtain ⟨hacc, hbooked⟩ := hd.booked hlt
    rw [hacc] at ho
    have := hbooked ho
    have := h.booked o ho
    omega
  · rcases hd.collections o with he | ⟨-, -, hgone⟩
    · exact hzero o (h.gone o (he ▸ ho))
    · exact hgone
  · have hone := h.once o
    rcases hd.collections o with he | ⟨he, hhand, -⟩
    · omega
    · -- the object has a handle on it, so that it was not finalized before
      have hcount := (h.count_of_handle hl (o := o) (by omega)).2
      have hgone := h.gone o
      omega

theorem abandon {p : ObjectId} (h : w.Sane objects (some p :: hs)) :
    (w.transfer .abandoned p).Sane objects hs where
  balanced := h.balanced.abandon
  counted o ho := by
    have := h.counted o ho
    simpa [Journal.countAfter, Event.change] using this
  lawful := ⟨fun o ho => (by cases ho), h.lawful⟩
  strange o ho := by
    have := h.strange o ho
    rw [List.count_cons] at this
    rw [held_transfer]
    omega
  recovered := h.recovered
  booked o ho := by
    have := h.booked o ho
    simpa [World.booked, external_transfer, Transfer.credit] using this
  gone o ho := h.gone o (by simpa [Event.collects] using ho)
  once o := by simpa [Event.collects] using h.once o

theorem init (hbacked : ∀ x ∈ objects, (x.custody.booked : Int) ≤ x.refs) :
    (World.init objects).Sane objects [] where
  balanced := World.balanced_init objects
  counted o _ := by
    have hnet : Journal.net (World.init objects).ledger o = 0 := rfl
    rw [Journal.countAfter, hnet, Int.add_zero]
  lawful := trivial
  strange o _ := rfl
  recovered o ho := by cases ho
  booked o ho := by
    have hext : (World.init objects).external o = 0 := rfl
    have hrecovered : (World.init objects).recovered.count o = 0 := rfl
    rw [World.booked, hext, hrecovered, Int.add_zero, Nat.add_zero]
    simp only [World.custody, World.count, World.init] at ho ⊢
    cases hx : objects[o]? with
    | none =>
      rw [hx] at ho
      cases ho
    | some x => exact hbacked x (List.mem_of_getElem? hx)
  gone o ho := by cases ho
  once o := Nat.zero_le 1

end World.Sane

namespace Machine

variable {objects : List ForeignObject} {steps : List Step} {ms : List Machine} {a b m : Machine}

/-- What a turn does to the ledger and to objects that are gone: the ledger only
grows, and nothing is brought back. -/
theorem Turn.ages (h : Turn a b) (ha : a.world.Consistent)
    (hsane : Journal.Legitimate objects a.world.ledger → a.world.Sane objects a.hands) :
    a.world.ledger <:+ b.world.ledger ∧
      (Journal.Legitimate objects b.world.ledger →
        b.world.Sane objects b.hands ∧ ∀ o, a.world.count o = 0 → b.world.count o = 0) := by
  refine h.preserves_deals (P := fun w hs => a.world.ledger <:+ w.ledger ∧
    (Journal.Legitimate objects w.ledger →
      w.Sane objects hs ∧ ∀ o, a.world.count o = 0 → w.count o = 0)) ?_ ?_ ha
    ⟨List.suffix_rfl, fun hl => ⟨hsane hl, fun _ ho => ho⟩⟩
  · rintro w hs w' hs' ⟨hsuffix, hw⟩ hd
    refine ⟨hsuffix.trans hd.ledger_suffix, fun hl' => ?_⟩
    have hl := hl'.suffix hd.ledger_suffix
    obtain ⟨hsane, hzero⟩ := hw hl
    refine ⟨hsane.deal hd hl', fun o ho => ?_⟩
    rcases hd.count_eq_or_vouches o with he | hv
    · exact he.trans (hzero o ho)
    · have hpos := (hsane.count_of_vouches hl hv).2
      have hnone := hzero o ho
      omega
  · rintro w hs o ⟨hsuffix, hw⟩
    have hgrow : w.ledger <:+ (w.transfer .abandoned o).ledger := List.suffix_cons _ _
    refine ⟨hsuffix.trans hgrow, fun hl' => ?_⟩
    obtain ⟨hsane, hzero⟩ := hw (hl'.suffix hgrow)
    exact ⟨hsane.abandon, hzero⟩

theorem Run.sane (h : Run (session objects steps) ms m)
    (hbacked : ∀ x ∈ objects, (x.custody.booked : Int) ≤ x.refs)
    (hl : Journal.Legitimate objects m.world.ledger) :
    ∀ a ∈ m :: ms, Journal.Legitimate objects a.world.ledger ∧ a.world.Sane objects a.hands ∧
      ∀ o, a.world.count o = 0 → m.world.count o = 0 := by
  -- what is legitimate is known at the end only, so that the invariant supposes it
  let P (a : Machine) : Prop := a.world.Consistent ∧
    (Journal.Legitimate objects a.world.ledger → a.world.Sane objects a.hands)
  let R (a b : Machine) : Prop := a.world.ledger <:+ b.world.ledger ∧
    (Journal.Legitimate objects b.world.ledger → ∀ o, a.world.count o = 0 → b.world.count o = 0)
  have hrefl (a : Machine) : R a a := ⟨List.suffix_rfl, fun _ _ ho => ho⟩
  have htrans (a b c : Machine) (hab : R a b) (hbc : R b c) : R a c :=
    ⟨hab.1.trans hbc.1, fun hl o ho => hbc.2 hl o (hab.2 (hl.suffix hbc.1) o ho)⟩
  have hstep (a b : Machine) (ha : P a) (hab : Turn a b) : P b ∧ R a b := by
    obtain ⟨hsuffix, hb⟩ := hab.ages ha.1 ha.2
    exact ⟨⟨hab.consistent ha.1, fun hl => (hb hl).1⟩, hsuffix, fun hl => (hb hl).2⟩
  have hhands : (session objects steps).hands = [] := by
    simp [session, hands, List.flatMap_map, Job.hands]
  have hstart : P (session objects steps) :=
    ⟨World.consistent_init objects, fun _ => hhands ▸ World.Sane.init hbacked⟩
  obtain ⟨hPm, hPms⟩ := h.preserves (fun a b ha hab => (hstep a b ha hab).1) hstart
  have hRms := (h.relates hrefl htrans hstep hstart).2
  rintro a (_ | ⟨_, ha⟩)
  · exact ⟨hl, hPm.2 hl, fun _ ho => ho⟩
  · obtain ⟨hsuffix, hzero⟩ := hRms a ha
    exact ⟨hl.suffix hsuffix, (hPms a ha).2 (hl.suffix hsuffix), hzero hl⟩

/-- If the next turn releases a handle on `o`, it finalizes nothing. -/
def Spares (a : Machine) (o : ObjectId) : Prop :=
  ∀ rest out, a.jobs = .release (some o) :: rest →
    Job.run a.world (.release (some o)) = .ok out → out.call = none

/-- The next turn of the machine refuses a listener on `o` because it is
registered. -/
def Refuses (a : Machine) (o : ObjectId) : Prop :=
  ∃ t rest s k, a.jobs = t :: rest ∧ t.action? a.world = some (s, .insert k) ∧
    k.handle = some o ∧ Roster.idOf? (a.world.registry s).slots k ≠ none

/-- The release of one of several handles finalizes nothing. -/
theorem spares_of_handles {o : ObjectId} (hsane : a.world.Sane objects a.hands)
    (hl : Journal.Legitimate objects a.world.ledger) (ho : 1 < a.world.held o + a.inFlight o) :
    a.Spares o := by
  have hlt := (hsane.count_of_handle hl (o := o) (by rw [inFlight] at ho; omega)).1
  have hcount := hsane.balanced.count o hlt
  have hext := hl a.world.ledger List.suffix_rfl o hlt
  rw [← external_eq_ledger] at hext
  rintro rest out - hrun
  simp only [Job.run] at hrun
  split at hrun <;> rename_i hzero
  · rw [count_emit, count_adjust o (-1) (by rw [hsane.balanced.length]; exact hlt),
      if_pos rfl] at hzero
    rw [inFlight] at ho
    omega
  · cases hrun
    rfl

/-- A listener that is refused stays registered. -/
theorem Turn.held_of_refuses {o : ObjectId} (h : Turn a b) (ha : a.world.Consistent)
    (ho : a.Refuses o) : 0 < b.world.held o := by
  obtain ⟨t, rest, s, k, hjobs, hact, hk, hid⟩ := ho
  obtain ⟨id, hid⟩ := Option.ne_none_iff_exists'.1 hid
  obtain ⟨out, r, -, hslots, htakes, rfl⟩ := h.takes ha hjobs hact
  have hentry : (id, k) ∈ (out.world.registry s).entries := by
    rw [htakes.acted, Registry.entries, hslots, Roster.apply, Roster.add_of_present hid]
    exact Roster.mem_entries_of_idOf? hid
  exact held_of_entry hentry hk

/-- **No object is used after its last reference is gone.** Suppose that the host
has the references it keeps account of in the beginning, and never gives away more
than it has. Then every call on an object, at the time of the call, finds a
positive count, and so does every turn, wherever there is a handle. An object is
finalized once at most; after that nothing refers to it, and a count of zero
stays. A handle that is released while there is another one, such as a listener
that is refused because it is registered, finalizes nothing. -/
theorem no_use_after_release (h : Run (session objects steps) ms m)
    (hbacked : ∀ x ∈ objects, (x.custody.booked : Int) ≤ x.refs)
    (hlegit : Journal.Legitimate objects m.world.journal) :
    (∀ later e earlier o, m.world.journal = later ++ e :: earlier → e.calls o = true →
      o < objects.length ∧ 1 ≤ Journal.countAfter objects earlier o) ∧
    (∀ a ∈ m :: ms, ∀ o < objects.length,
      a.world.count o = Journal.countAfter objects a.world.journal o) ∧
    (∀ a ∈ m :: ms, ∀ o, 0 < a.world.held o + a.inFlight o →
      o < objects.length ∧ 1 ≤ a.world.count o) ∧
    (∀ o, Journal.collections m.world.journal o ≤ 1) ∧
    (∀ a ∈ m :: ms, ∀ o, 0 < Journal.collections a.world.journal o →
      a.world.count o = 0 ∧ a.world.held o = 0 ∧ a.inFlight o = 0) ∧
    (∀ a ∈ ms, ∀ o, a.world.count o = 0 → m.world.count o = 0) ∧
    (∀ a ∈ m :: ms, ∀ o, 1 < a.world.held o + a.inFlight o → a.Spares o) ∧
    (∀ before a b after o, ms = before ++ a :: b :: after → a.Refuses o → b.Spares o) := by
  have hl : Journal.Legitimate objects m.world.ledger := hlegit.filter
  have hall := h.sane hbacked hl
  have hm := (hall m List.mem_cons_self).2.1
  have hspares (a : Machine) (ha : a ∈ m :: ms) (o : ObjectId)
      (ho : 1 < a.world.held o + a.inFlight o) : a.Spares o :=
    spares_of_handles (hall a ha).2.1 (hall a ha).1 ho
  refine ⟨fun later e earlier o hj he => hm.count_of_calls hj he, fun a ha o ho => ?_,
    fun a ha o ho => ?_, fun o => ?_, fun a ha o ho => ?_, fun a ha => ?_, hspares, ?_⟩
  · rw [(hall a ha).2.1.counted o ho, Journal.countAfter, ledger, Journal.net_filter]
    rfl
  · exact (hall a ha).2.1.count_of_handle (hall a ha).1 ho
  · rw [← Journal.collections_filter]
    exact hm.once o
  · rw [← Journal.collections_filter] at ho
    obtain ⟨hla, hsane, -⟩ := hall a ha
    have hgone := hsane.gone o ho
    have hhandles : ¬ 0 < a.world.held o + a.hands.count (some o) := fun hpos => by
      have := (hsane.count_of_handle hla hpos).2
      omega
    rw [inFlight]
    omega
  · exact (hall a (List.mem_cons_of_mem _ ha)).2.2
  · rintro before a b after o rfl ho rest out hjobs
    have hturn : Turn a b := by
      obtain ⟨-, hrun⟩ := h.split
      cases hrun with
      | cons hab hrest =>
        cases hrest with
        | cons _ _ => exact hab
    have hheld := hturn.held_of_refuses (h.consistent.2 a (by simp)) ho
    have hhand : 0 < b.inFlight o := by
      simp [inFlight, hands, hjobs, Job.hands]
    exact hspares b (by simp) o (by omega) rest out hjobs

/-- A meeting is legitimate: the host lets go of the first object once, and has
held it once. -/
theorem no_use_after_release_in_meeting :
    (∀ a ∈ visited meeting 67 (session meetingObjects meetingSteps),
      ∀ o, 0 < a.world.held o + a.inFlight o → o < 2 ∧ 1 ≤ a.world.count o) ∧
    Journal.collections ((session meetingObjects meetingSteps).turns meeting 67).world.journal 0 = 1
    := by
  obtain ⟨-, -, halive, -⟩ := no_use_after_release
    (run_visited meeting 67 (session meetingObjects meetingSteps))
    (by decide) (by decide +kernel)
  exact ⟨fun a ha => halive a (List.mem_cons_of_mem _ ha), by decide +kernel⟩

end Machine

end ListenerRegistry
