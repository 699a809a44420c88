import ListenerRegistry.Machine

/-!
# The elementary changes of a world

Acquiring references, moving handles and keys between registers, changing
objects and noting events do not reach the registries. Counts and accounts change
where they are said to change.
-/

namespace ListenerRegistry

namespace World

variable {w w' : World}

@[simp] theorem registry_emit (e : Event) (s : Nat) : (w.emit e).registry s = w.registry s := rfl

@[simp] theorem registry_log (m : LogMessage) (s : Nat) : (w.log m).registry s = w.registry s := rfl

@[simp] theorem registry_adjust (o : ObjectId) (d : Int) (s : Nat) :
    (w.adjust o d).registry s = w.registry s := rfl

@[simp] theorem registry_acquire (h : Handle) (s : Nat) :
    (w.acquire h).registry s = w.registry s := by
  cases h <;> rfl

@[simp] theorem registry_abandon (h : Handle) (s : Nat) :
    (w.abandon h).registry s = w.registry s := by
  cases h <;> rfl

@[simp] theorem registry_setHandle (h : Nat) (new : Handle) (s : Nat) :
    (w.setHandle h new).registry s = w.registry s := rfl

@[simp] theorem registry_setKey (k : Nat) (new : Option Key) (s : Nat) :
    (w.setKey k new).registry s = w.registry s := rfl

@[simp] theorem registry_saveId (save : Option Nat) (id : ListenerId) (s : Nat) :
    (w.saveId save id).registry s = w.registry s := by
  cases save <;> rfl

/-! ## What lies in store -/

/-- The registries, and the keys in registers and in the hash set. -/
def stores (w : World) : Bank Registry × Bank (Option Key) × List Key :=
  (w.registries, w.keys, w.keySet)

theorem registry_of_stores (h : w'.stores = w.stores) (s : Nat) :
    w'.registry s = w.registry s := by
  unfold registry
  rw [(Prod.mk.inj h).1]

@[simp] theorem stores_emit (e : Event) : (w.emit e).stores = w.stores := rfl

@[simp] theorem stores_transfer (t : Transfer) (o : ObjectId) :
    (w.transfer t o).stores = w.stores := rfl

@[simp] theorem stores_modifyObject (o : ObjectId) (f : ForeignObject → ForeignObject) :
    (w.modifyObject o f).stores = w.stores := rfl

@[simp] theorem stores_setCustody (o : ObjectId) (c : Custody) :
    (w.setCustody o c).stores = w.stores := rfl

@[simp] theorem stores_setHandle (h : Nat) (new : Handle) :
    (w.setHandle h new).stores = w.stores := rfl

@[simp] theorem stores_acquire (h : Handle) : (w.acquire h).stores = w.stores := by
  cases h <;> rfl

theorem stores_of_borrow? {target : Handle} (h : w.borrow? target = some w') :
    w'.stores = w.stores := by
  cases target with
  | none => cases h; rfl
  | some o =>
    simp only [borrow?] at h
    split at h <;> cases h
    rfl

theorem stores_of_spend? {o : ObjectId} (h : w.spend? o = some w') : w'.stores = w.stores := by
  simp only [spend?] at h
  split at h
  · obtain ⟨c, -, rfl⟩ := Option.map_eq_some_iff.1 h
    rfl
  · cases h

theorem stores_of_adopt? {target : Handle} (h : w.adopt? target = some w') :
    w'.stores = w.stores := by
  cases target with
  | none => cases h; rfl
  | some o =>
    obtain ⟨v, hv, rfl⟩ := Option.map_eq_some_iff.1 h
    show v.stores = w.stores
    exact stores_of_spend? hv

theorem stores_of_obtain? {source : Source} {h : Handle} (ho : w.obtain? source = some (h, w')) :
    w'.stores = w.stores := by
  cases source with
  | fresh target =>
    obtain ⟨v, hv, he⟩ := Option.map_eq_some_iff.1 ho
    cases he
    exact stores_of_borrow? hv
  | copied => cases ho; simp
  | taken => cases ho; rfl

theorem stores_of_grip? {probe : Probe} {grip : Grip} (h : w.grip? probe = some (grip, w')) :
    w'.stores = w.stores := by
  cases probe with
  | fresh target =>
    obtain ⟨v, hv, he⟩ := Option.map_eq_some_iff.1 h
    cases he
    exact stores_of_borrow? hv
  | register => cases h; rfl

theorem registry_setRegistry (s s' : Nat) (r : Registry) :
    (w.setRegistry s r).registry s' = if s' = s then r else w.registry s' :=
  Bank.read_write _ _ _ _

@[simp] theorem registry_setRegistry_self (s : Nat) (r : Registry) :
    (w.setRegistry s r).registry s = r :=
  Bank.read_write_self _ _ _

/-! ## Objects -/

theorem count_of_length_le {o : ObjectId} (h : w.objects.length ≤ o) : w.count o = 0 := by
  simp [count, h]

theorem lt_length_of_alive {o : ObjectId} (h : w.alive o = true) : o < w.objects.length := by
  refine Nat.lt_of_not_le fun hle => ?_
  simp [alive, count_of_length_le hle] at h

theorem custody_of_length_le {o : ObjectId} (h : w.objects.length ≤ o) :
    w.custody o = .unaccounted := by
  simp [custody, h]

theorem lt_length_of_hasOwner {o : ObjectId} (h : (w.custody o).hasOwner = true) :
    o < w.objects.length := by
  refine Nat.lt_of_not_le fun hle => ?_
  rw [custody_of_length_le hle] at h
  cases h

@[simp] theorem length_modifyObject (o : ObjectId) (f : ForeignObject → ForeignObject) :
    (w.modifyObject o f).objects.length = w.objects.length := by
  simp [modifyObject]

/-- A change that keeps the reference count of an object keeps all counts. -/
theorem count_modifyObject {f : ForeignObject → ForeignObject} (hf : ∀ x, (f x).refs = x.refs)
    (o p : ObjectId) : (w.modifyObject o f).count p = w.count p := by
  simp only [count, modifyObject, List.getElem?_modify]
  cases w.objects[p]? with
  | none => rfl
  | some x =>
    by_cases ho : o = p
    · simp [ho, hf]
    · simp [ho]

theorem count_adjust (o : ObjectId) (d : Int) {p : ObjectId} (h : p < w.objects.length) :
    (w.adjust o d).count p = w.count p + if o = p then d else 0 := by
  simp only [count, adjust, modifyObject, List.getElem?_modify, List.getElem?_eq_getElem h]
  by_cases ho : o = p
  · simp [ho]
  · simp [ho]

/-- A change that keeps the account of an object keeps all accounts. -/
theorem custody_modifyObject {f : ForeignObject → ForeignObject}
    (hf : ∀ x, (f x).custody = x.custody) (o p : ObjectId) :
    (w.modifyObject o f).custody p = w.custody p := by
  simp only [custody, modifyObject, List.getElem?_modify]
  cases w.objects[p]? with
  | none => rfl
  | some x =>
    by_cases ho : o = p
    · simp [ho, hf]
    · simp [ho]

/-- The value of an object. -/
def value (w : World) (o : ObjectId) : String := (w.objects[o]?).elim "" ForeignObject.value

/-- A change that keeps the value of an object keeps all values. -/
theorem value_modifyObject {f : ForeignObject → ForeignObject} (hf : ∀ x, (f x).value = x.value)
    (o p : ObjectId) : (w.modifyObject o f).value p = w.value p := by
  simp only [value, modifyObject, List.getElem?_modify]
  cases w.objects[p]? with
  | none => rfl
  | some x =>
    by_cases ho : o = p
    · simp [ho, hf]
    · simp [ho]

theorem custody_setCustody (o : ObjectId) (c : Custody) {p : ObjectId} (h : p < w.objects.length) :
    (w.setCustody o c).custody p = if o = p then c else w.custody p := by
  simp only [custody, setCustody, modifyObject, List.getElem?_modify, List.getElem?_eq_getElem h]
  by_cases ho : o = p
  · simp [ho]
  · simp [ho]

end World

end ListenerRegistry
