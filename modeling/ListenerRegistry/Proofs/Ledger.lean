import Mathlib.Algebra.Ring.Int.Defs
import ListenerRegistry.Proofs.Dealings

/-!
# What the ledger says

The ledger is the part of the journal about references. It says how often
references have changed hands, what the host has got and given away since the
beginning, what the count of an object should be, and whether the calls on it were
lawful. Each elementary change of a world adds to the ledger, to the counts and to
the account of the host what it says.
-/

namespace ListenerRegistry

open World

/-! ## Events -/

namespace Event

/-- The event is a transfer `t` of a reference on `o`. -/
def isTransfer (t : Transfer) (o : ObjectId) : Event → Bool
  | transfer t' o' => t' == t && o' == o
  | _ => false

theorem matters_of_isTransfer {e : Event} {t : Transfer} {o : ObjectId}
    (h : e.isTransfer t o = true) : e.matters = true := by
  cases e with
  | transfer => rfl
  | _ => cases h

/-- The event is a call on `o` by the library. -/
def calls (o : ObjectId) : Event → Bool
  | incref p | decref p | hash p => p == o
  | _ => false

/-- The event is the finalization of `o`. -/
def collects (o : ObjectId) : Event → Bool
  | collect p => p == o
  | _ => false

/-- The change that an event makes to the count of `o`. -/
def change (o : ObjectId) : Event → Int
  | incref p => if p = o then 1 else 0
  | decref p => if p = o then -1 else 0
  | _ => 0

theorem matters_of_calls {e : Event} {o : ObjectId} (h : e.calls o = true) :
    e.matters = true := by
  cases e with
  | incref | decref | hash => rfl
  | _ => cases h

theorem matters_of_collects {e : Event} {o : ObjectId} (h : e.collects o = true) :
    e.matters = true := by
  cases e with
  | collect => rfl
  | _ => cases h

end Event

/-- The change in the references that the host holds. A reference that is lost is
not the host's. -/
def Transfer.credit : Transfer → Int
  | hostAcquired | surrendered => 1
  | hostReleased | adopted => -1
  | abandoned => 0

/-! ## Journals -/

namespace Journal

/-- How many transfers `t` of references on `o` there have been. -/
def transfers (j : List Event) (t : Transfer) (o : ObjectId) : Nat :=
  j.countP (Event.isTransfer t o)

/-- What the references on `o` that the host holds have changed by. -/
def external (j : List Event) (o : ObjectId) : Int :=
  transfers j .hostAcquired o - transfers j .hostReleased o + transfers j .surrendered o -
    transfers j .adopted o

theorem transfers_filter (j : List Event) (t : Transfer) (o : ObjectId) :
    transfers (j.filter Event.matters) t o = transfers j t o := by
  rw [transfers, transfers, List.countP_filter]
  refine List.countP_congr fun e _ => ?_
  simpa using fun h => Event.matters_of_isTransfer h

theorem external_filter (j : List Event) (o : ObjectId) :
    external (j.filter Event.matters) o = external j o := by
  simp only [external, transfers_filter]

/-- The change that the events of a journal make to the count of `o`. -/
def net (j : List Event) (o : ObjectId) : Int := (j.map (Event.change o)).sum

/-- How often `o` was finalized. -/
def collections (j : List Event) (o : ObjectId) : Nat := j.countP (Event.collects o)

@[simp] theorem net_cons (e : Event) (j : List Event) (o : ObjectId) :
    net (e :: j) o = e.change o + net j o := by
  simp [net]

@[simp] theorem collections_cons (e : Event) (j : List Event) (o : ObjectId) :
    collections (e :: j) o = collections j o + if e.collects o then 1 else 0 :=
  List.countP_cons

theorem net_filter (j : List Event) (o : ObjectId) : net (j.filter Event.matters) o = net j o := by
  induction j with
  | nil => rfl
  | cons e j ih =>
    by_cases he : e.matters = true
    · rw [List.filter_cons_of_pos he, net_cons, net_cons, ih]
    · rw [List.filter_cons_of_neg he, net_cons, ih]
      cases e <;> simp_all [Event.matters, Event.change]

theorem collections_filter (j : List Event) (o : ObjectId) :
    collections (j.filter Event.matters) o = collections j o := by
  rw [collections, collections, List.countP_filter]
  refine List.countP_congr fun e _ => ?_
  simpa using fun h => Event.matters_of_collects h

/-- The count that `o` has when the journal is written up to here. -/
def countAfter (objects : List ForeignObject) (j : List Event) (o : ObjectId) : Int :=
  (init objects).count o + net j o

/-- The host never gives away more references than it has. -/
def Legitimate (objects : List ForeignObject) (j : List Event) : Prop :=
  ∀ earlier, earlier <:+ j → ∀ o < objects.length, 0 ≤ (init objects).count o + external earlier o

instance (objects : List ForeignObject) (j : List Event) : Decidable (Legitimate objects j) :=
  decidable_of_iff (∀ n < j.length + 1, ∀ o < objects.length,
      0 ≤ (init objects).count o + external (j.drop n) o) <| by
    constructor
    · intro h earlier hearlier
      rw [List.suffix_iff_eq_drop.1 hearlier]
      exact h _ (by omega)
    · exact fun h n _ => h _ (List.drop_suffix n j)

/-- Every call was on an object with a positive count. -/
def Lawful (objects : List ForeignObject) : List Event → Prop
  | [] => True
  | e :: earlier =>
      (∀ o, e.calls o = true → o < objects.length ∧ 1 ≤ countAfter objects earlier o) ∧
        Lawful objects earlier

theorem Legitimate.suffix {objects : List ForeignObject} {j j' : List Event}
    (h : Legitimate objects j') (hj : j <:+ j') : Legitimate objects j :=
  fun earlier hearlier => h earlier (hearlier.trans hj)

/-- Only the events about references matter for what is legitimate. -/
theorem Legitimate.filter {objects : List ForeignObject} {j : List Event}
    (h : Legitimate objects j) : Legitimate objects (j.filter Event.matters) := by
  rintro earlier ⟨later, hsplit⟩ o ho
  obtain ⟨l₁, l₂, hj, -, rfl⟩ := List.filter_eq_append_iff.1 hsplit.symm
  rw [external_filter]
  exact h l₂ ⟨l₁, hj.symm⟩ o ho

theorem Lawful.of_append {objects : List ForeignObject} {later : List Event} {e : Event}
    {earlier : List Event} (h : Lawful objects (later ++ e :: earlier)) {o : ObjectId}
    (he : e.calls o = true) : o < objects.length ∧ 1 ≤ countAfter objects earlier o := by
  induction later with
  | nil => exact h.1 o he
  | cons _ _ ih => exact ih h.2

end Journal

/-! ## What has changed hands -/

namespace World

def transfers (w : World) (t : Transfer) (o : ObjectId) : Nat := Journal.transfers w.journal t o

def external (w : World) (o : ObjectId) : Int := Journal.external w.journal o

theorem transfers_eq_ledger (w : World) (t : Transfer) (o : ObjectId) :
    w.transfers t o = Journal.transfers w.ledger t o :=
  (Journal.transfers_filter w.journal t o).symm

theorem external_eq_ledger (w : World) (o : ObjectId) :
    w.external o = Journal.external w.ledger o :=
  (Journal.external_filter w.journal o).symm

theorem external_eq (w : World) (o : ObjectId) : w.external o =
    w.transfers .hostAcquired o - w.transfers .hostReleased o + w.transfers .surrendered o -
      w.transfers .adopted o := rfl

variable {w w' : World}

theorem Alike.transfers (h : w.Alike w') (t : Transfer) (o : ObjectId) :
    w'.transfers t o = w.transfers t o := by
  rw [transfers_eq_ledger, transfers_eq_ledger, h.ledger]

theorem Alike.external (h : w.Alike w') (o : ObjectId) : w'.external o = w.external o := by
  rw [external_eq_ledger, external_eq_ledger, h.ledger]

theorem transfers_emit (e : Event) (t : Transfer) (o : ObjectId) :
    (w.emit e).transfers t o = w.transfers t o + if e.isTransfer t o then 1 else 0 :=
  List.countP_cons

theorem transfers_transfer (t' : Transfer) (o' : ObjectId) (t : Transfer) (o : ObjectId) :
    (w.transfer t' o').transfers t o = w.transfers t o + if t' = t ∧ o' = o then 1 else 0 := by
  rw [transfer, transfers_emit]
  simp [Event.isTransfer]

theorem external_transfer (t : Transfer) (p o : ObjectId) :
    (w.transfer t p).external o = w.external o + if p = o then t.credit else 0 := by
  simp only [external_eq, transfers_transfer]
  by_cases hp : p = o
  · subst hp
    cases t <;> simp [Transfer.credit] <;> omega
  · simp [hp]

/-! ## Counting and calling transfer nothing -/

@[simp] theorem transfers_acquire (h : Handle) (t : Transfer) (o : ObjectId) :
    (w.acquire h).transfers t o = w.transfers t o := by
  cases h with
  | none => rfl
  | some p => exact transfers_emit _ t o

@[simp] theorem transfers_relinquish (p : ObjectId) (t : Transfer) (o : ObjectId) :
    (w.relinquish p).transfers t o = w.transfers t o := by
  simp only [relinquish]
  split
  · rw [transfers_emit, transfers_emit]
    rfl
  · rw [transfers_emit]
    rfl

@[simp] theorem transfers_hash (p : ObjectId) (t : Transfer) (o : ObjectId) :
    (w.emit (.hash p)).transfers t o = w.transfers t o :=
  transfers_emit _ t o

@[simp] theorem transfers_setCustody (p : ObjectId) (c : Custody) (t : Transfer) (o : ObjectId) :
    (w.setCustody p c).transfers t o = w.transfers t o := rfl

@[simp] theorem external_acquire (h : Handle) (o : ObjectId) :
    (w.acquire h).external o = w.external o := by
  simp [external_eq]

@[simp] theorem external_relinquish (p o : ObjectId) :
    (w.relinquish p).external o = w.external o := by
  simp [external_eq]

@[simp] theorem external_hash (p o : ObjectId) : (w.emit (.hash p)).external o = w.external o := by
  simp [external_eq]

@[simp] theorem external_setCustody (p : ObjectId) (c : Custody) (o : ObjectId) :
    (w.setCustody p c).external o = w.external o := rfl

@[simp] theorem external_setRecovered (rest : List ObjectId) (o : ObjectId) :
    external { w with recovered := rest } o = w.external o := rfl

/-! ## Counts -/

@[simp] theorem count_emit (e : Event) (o : ObjectId) : (w.emit e).count o = w.count o := rfl

@[simp] theorem count_transfer (t : Transfer) (p o : ObjectId) :
    (w.transfer t p).count o = w.count o := rfl

@[simp] theorem count_setCustody (p : ObjectId) (c : Custody) (o : ObjectId) :
    (w.setCustody p c).count o = w.count o :=
  count_modifyObject (f := fun x => { x with custody := c }) (fun _ => rfl) p o

@[simp] theorem count_setRecovered (rest : List ObjectId) (o : ObjectId) :
    count { w with recovered := rest } o = w.count o := rfl

theorem count_acquire (p : ObjectId) {o : ObjectId} (h : o < w.objects.length) :
    (w.acquire (some p)).count o = w.count o + if p = o then 1 else 0 :=
  count_adjust p 1 h

theorem count_relinquish (p : ObjectId) {o : ObjectId} (h : o < w.objects.length) :
    (w.relinquish p).count o = w.count o + if p = o then -1 else 0 := by
  simp only [relinquish]
  split <;> exact count_adjust p (-1) h

@[simp] theorem length_transfer (t : Transfer) (o : ObjectId) :
    (w.transfer t o).objects.length = w.objects.length := rfl

@[simp] theorem length_setCustody (o : ObjectId) (c : Custody) :
    (w.setCustody o c).objects.length = w.objects.length :=
  length_modifyObject o _

@[simp] theorem length_acquire (h : Handle) : (w.acquire h).objects.length = w.objects.length := by
  cases h with
  | none => rfl
  | some o => exact length_modifyObject o _

@[simp] theorem length_relinquish (o : ObjectId) :
    (w.relinquish o).objects.length = w.objects.length := by
  simp only [relinquish]
  split <;> exact length_modifyObject o _

/-! ## Handles that are held -/

@[simp] theorem held_emit (e : Event) (o : ObjectId) : (w.emit e).held o = w.held o := rfl

@[simp] theorem held_transfer (t : Transfer) (p o : ObjectId) :
    (w.transfer t p).held o = w.held o := rfl

@[simp] theorem held_setCustody (p : ObjectId) (c : Custody) (o : ObjectId) :
    (w.setCustody p c).held o = w.held o := rfl

@[simp] theorem held_setRecovered (rest : List ObjectId) (o : ObjectId) :
    held { w with recovered := rest } o = w.held o := rfl

@[simp] theorem held_acquire (h : Handle) (o : ObjectId) : (w.acquire h).held o = w.held o := by
  cases h <;> rfl

@[simp] theorem held_relinquish (p o : ObjectId) : (w.relinquish p).held o = w.held o := by
  simp only [relinquish]
  split <;> rfl

/-! ## The ledger -/

@[simp] theorem ledger_acquire (p : ObjectId) :
    (w.acquire (some p)).ledger = .incref p :: w.ledger := rfl

@[simp] theorem ledger_transfer (t : Transfer) (p : ObjectId) :
    (w.transfer t p).ledger = .transfer t p :: w.ledger := rfl

@[simp] theorem ledger_hash (p : ObjectId) : (w.emit (.hash p)).ledger = .hash p :: w.ledger := rfl

@[simp] theorem ledger_setCustody (p : ObjectId) (c : Custody) :
    (w.setCustody p c).ledger = w.ledger := rfl

@[simp] theorem ledger_setRecovered (rest : List ObjectId) :
    ledger { w with recovered := rest } = w.ledger := rfl

theorem ledger_relinquish (p : ObjectId) :
    (w.relinquish p).ledger =
      if (w.relinquish p).count p = 0 then .collect p :: .decref p :: w.ledger
      else .decref p :: w.ledger := by
  have hcount : (w.relinquish p).count p = (w.adjust p (-1)).count p := by
    simp only [relinquish]
    split <;> rfl
  rw [hcount]
  simp only [relinquish]
  split <;> rename_i hzero <;> rw [count_emit] at hzero
  · rw [if_pos hzero]
    rfl
  · rw [if_neg hzero]
    rfl

theorem net_relinquish (p o : ObjectId) :
    Journal.net (w.relinquish p).ledger o =
      (if p = o then -1 else 0) + Journal.net w.ledger o := by
  rw [ledger_relinquish]
  split <;> simp [Event.change]

/-! ## A reference for the host -/

theorem count_takeOne (p : ObjectId) {o : ObjectId} (h : o < w.objects.length) :
    (HostOp.takeOne w p).count o = w.count o + if p = o then 1 else 0 :=
  count_acquire (w := w.transfer .hostAcquired p) p h

theorem external_takeOne (p o : ObjectId) :
    (HostOp.takeOne w p).external o = w.external o + if p = o then 1 else 0 := by
  rw [HostOp.takeOne, external_acquire, external_transfer]
  rfl

theorem transfers_takeOne (p : ObjectId) (t : Transfer) (o : ObjectId) :
    (HostOp.takeOne w p).transfers t o =
      w.transfers t o + if .hostAcquired = t ∧ p = o then 1 else 0 := by
  rw [HostOp.takeOne, transfers_acquire, transfers_transfer]

@[simp] theorem ledger_takeOne (p : ObjectId) :
    (HostOp.takeOne w p).ledger = .incref p :: .transfer .hostAcquired p :: w.ledger := rfl

@[simp] theorem length_takeOne (p : ObjectId) :
    (HostOp.takeOne w p).objects.length = w.objects.length := by
  simp [HostOp.takeOne]

@[simp] theorem held_takeOne (p o : ObjectId) : (HostOp.takeOne w p).held o = w.held o := rfl

end World

/-! ## The account of the host -/

namespace Custody

@[simp] theorem isAccounted_gain (c : Custody) : c.gain.isAccounted = c.isAccounted := by
  cases c <;> rfl

theorem booked_gain {c : Custody} (h : c.isAccounted = true) : c.gain.booked = c.booked + 1 := by
  cases c with
  | unaccounted => cases h
  | accounted owner raw => rfl

theorem isAccounted_of_hasOwner {c : Custody} (h : c.hasOwner = true) :
    c.isAccounted = true ∧ 1 ≤ c.booked := by
  cases c with
  | unaccounted => cases h
  | accounted owner raw =>
    cases owner with
    | false => cases h
    | true => exact ⟨rfl, by simp [booked]⟩

end Custody

namespace World

variable {w : World}

/-- The references on `o` that the host keeps account of. -/
def booked (w : World) (o : ObjectId) : Nat := (w.custody o).booked + w.recovered.count o

@[simp] theorem custody_emit (e : Event) (o : ObjectId) : (w.emit e).custody o = w.custody o := rfl

@[simp] theorem custody_transfer (t : Transfer) (p o : ObjectId) :
    (w.transfer t p).custody o = w.custody o := rfl

@[simp] theorem custody_setRecovered (rest : List ObjectId) (o : ObjectId) :
    custody { w with recovered := rest } o = w.custody o := rfl

@[simp] theorem custody_adjust (p : ObjectId) (d : Int) (o : ObjectId) :
    (w.adjust p d).custody o = w.custody o :=
  custody_modifyObject (f := fun x => { x with refs := x.refs + d }) (fun _ => rfl) p o

@[simp] theorem custody_acquire (h : Handle) (o : ObjectId) :
    (w.acquire h).custody o = w.custody o := by
  cases h with
  | none => rfl
  | some p => exact custody_adjust p 1 o

@[simp] theorem custody_relinquish (p o : ObjectId) :
    (w.relinquish p).custody o = w.custody o := by
  simp only [relinquish]
  split <;> exact custody_adjust p (-1) o

@[simp] theorem recovered_emit (e : Event) : (w.emit e).recovered = w.recovered := rfl

@[simp] theorem recovered_transfer (t : Transfer) (p : ObjectId) :
    (w.transfer t p).recovered = w.recovered := rfl

@[simp] theorem recovered_setCustody (p : ObjectId) (c : Custody) :
    (w.setCustody p c).recovered = w.recovered := rfl

@[simp] theorem recovered_acquire (h : Handle) : (w.acquire h).recovered = w.recovered := by
  cases h <;> rfl

@[simp] theorem recovered_relinquish (p : ObjectId) : (w.relinquish p).recovered = w.recovered := by
  simp only [relinquish]
  split <;> rfl

@[simp] theorem custody_takeOne (p o : ObjectId) :
    (HostOp.takeOne w p).custody o = w.custody o := by
  simp [HostOp.takeOne]

@[simp] theorem recovered_takeOne (p : ObjectId) :
    (HostOp.takeOne w p).recovered = w.recovered := rfl

theorem lt_length_of_accounted {o : ObjectId} (h : (w.custody o).isAccounted = true) :
    o < w.objects.length := by
  refine Nat.lt_of_not_le fun hle => ?_
  rw [custody_of_length_le hle] at h
  cases h

end World

end ListenerRegistry
