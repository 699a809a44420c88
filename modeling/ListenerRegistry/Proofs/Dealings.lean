import ListenerRegistry.Proofs.Holdings

/-!
# Dealings in references

Whatever happens to the references of objects comes down to a few dealings: a
handle moves, a reference is acquired or released, an object is hashed, or a
reference changes hands between the host and a handle. Every operation is a
chain of dealings (`Job.honors_run`), so that what every dealing preserves, every
run preserves. A handle that is overwritten unreleased is no dealing; only the
end of an assignment does that.
-/

namespace ListenerRegistry

/-! ## The part of the journal about references -/

/-- The event is about a reference, or is a call that needs one. -/
def Event.matters : Event → Bool
  | incref _ | decref _ | hash _ | collect _ | transfer _ _ => true
  | enter _ | leave _ | answered _ | log _ | keep _ => false

/-- The events about references, newest first. -/
def World.ledger (w : World) : List Event := w.journal.filter Event.matters

/-! ## What the host keeps account of -/

namespace Custody

/-- The references in an account. -/
def booked : Custody → Nat
  | unaccounted => 0
  | accounted owner raw => owner.toNat + raw

def isAccounted : Custody → Bool
  | unaccounted => false
  | accounted _ _ => true

/-- The second account is the first one without one of its references. -/
def Spends (c c' : Custody) : Prop :=
  c'.isAccounted = c.isAccounted ∧ (c.isAccounted = true → c'.booked + 1 = c.booked)

theorem spends_of_spend {c c' : Custody} (h : c.spend = some c') : c.Spends c' := by
  cases c with
  | unaccounted =>
    cases h
    exact ⟨rfl, fun h => by cases h⟩
  | accounted owner raw =>
    cases raw with
    | succ raw =>
      cases h
      exact ⟨rfl, fun _ => rfl⟩
    | zero =>
      cases owner <;> cases h
      exact ⟨rfl, fun _ => rfl⟩

theorem spends_withoutOwner {c : Custody} (h : c.hasOwner = true) : c.Spends c.withoutOwner := by
  cases c with
  | unaccounted => cases h
  | accounted owner raw =>
    cases owner with
    | false => cases h
    | true => exact ⟨rfl, fun _ => by simp [booked, withoutOwner]; omega⟩

end Custody

/-! ## Dealings -/

namespace World

/-- Nothing happened to the references themselves. -/
structure Alike (w w' : World) : Prop where
  ledger : w'.ledger = w.ledger
  count : ∀ o, w'.count o = w.count o
  custody : ∀ o, w'.custody o = w.custody o
  value : ∀ o, w'.value o = w.value o
  recovered : w'.recovered = w.recovered
  length : w'.objects.length = w.objects.length

/-- There is reason to believe that `o` is alive: its count says so, there is a
handle on it, or the host has its owner. -/
def Vouches (w : World) (hs : List Handle) (o : ObjectId) : Prop :=
  w.alive o = true ∨ 0 < w.held o + hs.count (some o) ∨ (w.custody o).hasOwner = true

/-- Gives up one reference on `o`, and collects the object if it was the last. -/
def relinquish (w : World) (o : ObjectId) : World :=
  let w := (w.adjust o (-1)).emit (.decref o)
  if w.count o = 0 then w.emit (.collect o) else w

end World

/-- One dealing, between worlds and the handles that are in hand. -/
inductive Deal : World → List Handle → World → List Handle → Prop where
  /-- Handles move between registers and hands. -/
  | move {w w' : World} {hs hs' : List Handle} (alike : w.Alike w')
      (same : ∀ o, w'.held o + hs'.count (some o) = w.held o + hs.count (some o)) :
      Deal w hs w' hs'
  | acquire {w : World} {hs : List Handle} (o : ObjectId) (h : w.Vouches hs o) :
      Deal w hs (w.acquire (some o)) (some o :: hs)
  | release {w : World} {hs : List Handle} (o : ObjectId) :
      Deal w (some o :: hs) (w.relinquish o) hs
  | hash {w : World} {hs : List Handle} (o : ObjectId) (h : w.Vouches hs o) :
      Deal w hs (w.emit (.hash o)) hs
  /-- A handle's reference goes to the host. -/
  | surrender {w : World} {hs : List Handle} (o : ObjectId) :
      Deal w (some o :: hs) ((w.setCustody o (w.custody o).gain).transfer .surrendered o) hs
  /-- A handle's reference goes to an owner that is kept aside. -/
  | recover {w : World} {hs : List Handle} (o : ObjectId) :
      Deal w (some o :: hs) { w.transfer .surrendered o with recovered := o :: w.recovered } hs
  /-- A reference of the host's comes into hand, as a handle or to be released. -/
  | takeOver {w : World} {hs : List Handle} (o : ObjectId) {t : Transfer} {c : Custody}
      (ht : t = .adopted ∨ t = .hostReleased)
      (h : w.alive o = true ∨ (w.custody o).hasOwner = true) (hc : (w.custody o).Spends c) :
      Deal w hs ((w.setCustody o c).transfer t o) (some o :: hs)
  /-- The reference of an owner that was kept aside comes into hand. -/
  | takeBack {w : World} {hs : List Handle} (o : ObjectId) {rest : List ObjectId}
      (h : w.recovered = o :: rest) :
      Deal w hs (World.transfer { w with recovered := rest } .hostReleased o) (some o :: hs)
  | hostAcquire {w : World} {hs : List Handle} (o : ObjectId) (h : w.alive o = true) :
      Deal w hs (HostOp.takeOne (w.setCustody o (w.custody o).gain) o) hs
  /-- The host takes a reference and turns it into a handle. -/
  | share {w : World} {hs : List Handle} (o : ObjectId) (h : (w.custody o).hasOwner = true) :
      Deal w hs ((HostOp.takeOne w o).transfer .adopted o) (some o :: hs)

/-- A chain of dealings. -/
inductive Deals : World → List Handle → World → List Handle → Prop where
  | refl (w : World) (hs : List Handle) : Deals w hs w hs
  | step {w₁ w₂ w₃ : World} {hs₁ hs₂ hs₃ : List Handle} :
      Deals w₁ hs₁ w₂ hs₂ → Deal w₂ hs₂ w₃ hs₃ → Deals w₁ hs₁ w₃ hs₃

theorem World.Vouches.frame {w : World} {hs : List Handle} {o : ObjectId} (h : w.Vouches hs o)
    (rest : List Handle) : w.Vouches (hs ++ rest) o := by
  rcases h with h | h | h
  · exact Or.inl h
  · refine Or.inr (Or.inl ?_)
    rw [List.count_append]
    omega
  · exact Or.inr (Or.inr h)

/-- Other handles in hand have no part in a dealing. -/
theorem Deal.frame {w w' : World} {hs hs' : List Handle} (h : Deal w hs w' hs')
    (rest : List Handle) : Deal w (hs ++ rest) w' (hs' ++ rest) := by
  cases h with
  | move alike same =>
    refine .move alike fun o => ?_
    have := same o
    simp only [List.count_append]
    omega
  | acquire o h => exact .acquire o (h.frame rest)
  | release o => exact .release o
  | hash o h => exact .hash o (h.frame rest)
  | surrender o => exact .surrender o
  | recover o => exact .recover o
  | takeOver o ht h hc => exact .takeOver o ht h hc
  | takeBack o h => exact .takeBack o h
  | hostAcquire o h => exact .hostAcquire o h
  | share o h => exact .share o h

namespace Deals

variable {w w' w₁ w₂ w₃ : World} {hs hs' hs₁ hs₂ hs₃ : List Handle}

theorem of_deal (h : Deal w hs w' hs') : Deals w hs w' hs' := .step (.refl w hs) h

theorem trans (h₁ : Deals w₁ hs₁ w₂ hs₂) (h₂ : Deals w₂ hs₂ w₃ hs₃) : Deals w₁ hs₁ w₃ hs₃ := by
  induction h₂ with
  | refl => exact h₁
  | step _ h ih => exact (ih h₁).step h

theorem frame (h : Deals w hs w' hs') (rest : List Handle) :
    Deals w (hs ++ rest) w' (hs' ++ rest) := by
  induction h with
  | refl => exact .refl _ _
  | step _ h ih => exact ih.step (h.frame rest)

/-- What every dealing preserves, a chain preserves. -/
theorem preserves {P : World → List Handle → Prop}
    (deal : ∀ {w hs w' hs'}, P w hs → Deal w hs w' hs' → P w' hs') (h : Deals w hs w' hs')
    (hw : P w hs) : P w' hs' := by
  induction h with
  | refl => exact hw
  | step _ h ih => exact deal (ih hw) h

end Deals

/-! ## Common dealings -/

theorem World.Alike.of_objects {w w' : World} (hledger : w'.ledger = w.ledger)
    (hobjects : w'.objects = w.objects) (hrecovered : w'.recovered = w.recovered) : w.Alike w' where
  ledger := hledger
  count o := by simp only [World.count, hobjects]
  custody o := by simp only [World.custody, hobjects]
  value o := by simp only [World.value, hobjects]
  recovered := hrecovered
  length := by rw [hobjects]

theorem World.Alike.of_modifyObject (w : World) (o : ObjectId) {f : ForeignObject → ForeignObject}
    (hrefs : ∀ x, (f x).refs = x.refs) (hcustody : ∀ x, (f x).custody = x.custody)
    (hvalue : ∀ x, (f x).value = x.value) : w.Alike (w.modifyObject o f) where
  ledger := rfl
  count := count_modifyObject hrefs o
  custody := custody_modifyObject hcustody o
  value := value_modifyObject hvalue o
  recovered := rfl
  length := length_modifyObject o f

namespace Deals

open World

variable {w w' : World} {hs hs' : List Handle}

/-- Nothing happens that has to do with references. -/
theorem idle (alike : w.Alike w') (hheld : ∀ o, w'.held o = w.held o)
    (hhands : ∀ o, hs'.count (some o) = hs.count (some o)) : Deals w hs w' hs' :=
  of_deal (.move alike fun o => by rw [hheld, hhands])

/-- Null handles in hand do not matter. -/
theorem hands (hhands : ∀ o, hs'.count (some o) = hs.count (some o)) : Deals w hs w hs' :=
  idle (.of_objects rfl rfl rfl) (fun _ => rfl) hhands

/-- A handle is put in a register, and what was there comes into hand. -/
theorem stow (w : World) (hs : List Handle) (r : Nat) (new : Handle) :
    Deals w (new :: hs) (w.setHandle r new) (w.handle r :: hs) := by
  refine of_deal (.move (.of_objects rfl rfl rfl) fun o => ?_)
  have := held_setHandle w r new o
  simp only [List.count_cons, List.count_nil] at this ⊢
  omega

theorem stowKey (w : World) (hs : List Handle) (k : Nat) (new : Option Key) :
    Deals w (Key.handle? new :: hs) (w.setKey k new) (Key.handle? (w.key? k) :: hs) := by
  refine of_deal (.move (.of_objects rfl rfl rfl) fun o => ?_)
  have := held_setKey w k new o
  simp only [List.count_cons, List.count_nil] at this ⊢
  omega

theorem setKeySet (w : World) (keys : List Key)
    (h : ∀ o, (keys.map Key.handle).count (some o) + hs'.count (some o) =
      (w.keySet.map Key.handle).count (some o) + hs.count (some o)) :
    Deals w hs { w with keySet := keys } hs' := by
  refine of_deal (.move (.of_objects rfl rfl rfl) fun o => ?_)
  have := held_setKeySet w keys o
  have := h o
  omega

theorem setRegistry (w : World) (s : Nat) (r : Registry)
    (h : ∀ o, r.handles.count (some o) + hs'.count (some o) =
      (w.registry s).handles.count (some o) + hs.count (some o)) :
    Deals w hs (w.setRegistry s r) hs' := by
  refine of_deal (.move (.of_objects rfl rfl rfl) fun o => ?_)
  have := held_setRegistry w s r o
  have := h o
  omega

theorem log (w : World) (hs : List Handle) (m : LogMessage) : Deals w hs (w.log m) hs :=
  idle (.of_objects rfl rfl rfl) (fun _ => rfl) fun _ => rfl

theorem saveId (w : World) (hs : List Handle) (save : Option Nat) (id : ListenerId) :
    Deals w hs (w.saveId save id) hs := by
  cases save with
  | none => exact .refl w hs
  | some n => exact idle (.of_objects rfl rfl rfl) (fun _ => rfl) fun _ => rfl

theorem acquire {h : Handle} (hv : ∀ o, h = some o → w.Vouches hs o) :
    Deals w hs (w.acquire h) (h :: hs) := by
  cases h with
  | none => exact hands fun o => by simp
  | some o => exact of_deal (.acquire o (hv o rfl))

theorem borrow {target : Handle} (h : w.borrow? target = some w') :
    Deals w hs w' (target :: hs) := by
  cases target with
  | none =>
    cases h
    exact hands fun o => by simp
  | some o =>
    simp only [World.borrow?] at h
    split at h
    · rename_i halive
      cases h
      exact of_deal (.acquire o (Or.inl halive))
    · cases h

theorem adopt {target : Handle} (h : w.adopt? target = some w') :
    Deals w hs w' (target :: hs) := by
  cases target with
  | none =>
    cases h
    exact hands fun o => by simp
  | some o =>
    obtain ⟨v, hv, rfl⟩ := Option.map_eq_some_iff.1 h
    simp only [World.spend?] at hv
    split at hv
    · rename_i halive
      obtain ⟨c, hc, rfl⟩ := Option.map_eq_some_iff.1 hv
      exact of_deal (.takeOver o (Or.inl rfl) (Or.inl halive) (Custody.spends_of_spend hc))
    · cases hv

theorem grip {probe : Probe} {grip : Grip} (h : w.grip? probe = some (grip, w')) :
    Deals w hs w' (grip.owned :: hs) := by
  cases probe with
  | fresh target =>
    obtain ⟨v, hv, he⟩ := Option.map_eq_some_iff.1 h
    cases he
    exact borrow hv
  | register r =>
    cases h
    exact hands fun o => by simp [Grip.owned]

theorem obtain {source : Source} {h : Handle} (ho : w.obtain? source = some (h, w')) :
    Deals w hs w' (h :: hs) := by
  cases source with
  | fresh target =>
    obtain ⟨v, hv, he⟩ := Option.map_eq_some_iff.1 ho
    cases he
    exact borrow hv
  | copied r =>
    cases ho
    refine acquire fun o ho => Or.inr (Or.inl ?_)
    have := held_of_handle ho
    omega
  | taken r =>
    cases ho
    have hnull : Deals w hs w (none :: hs) := hands fun o => by simp
    exact hnull.trans (stow w hs r none)

end Deals

end ListenerRegistry
