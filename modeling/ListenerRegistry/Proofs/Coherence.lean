import ListenerRegistry.Proofs.Conservation
import ListenerRegistry.Proofs.Keys

/-!
# Stored hashes fit

A job that waits for a hash waits for the hash of the handle that its operation
owns, and no operation gets as far as to store null. So no registry has an entry
on null, whatever the objects answer. And where the objects answer steadily, every
key, wherever it is and however it got there, has the hash of its object.
-/

namespace ListenerRegistry

/-! ## Proper jobs -/

/-- A hash that is to be stored is that of the handle it is stored with, and this
handle is not null. -/
def Job.Proper : Job → Prop
  | ask (.insert _ h _) => h ≠ none
  | hashed o use => ∀ h, use.probe = .fresh h → h = some o
  | _ => True

namespace Job

variable {w : World} {t u : Job} {out : Outcome} {k : Key}

theorem proper_of_foreign (h : t.Foreign) : t.Proper := by
  cases t with
  | perform | record | leave => trivial
  | _ => exact h.elim

theorem Variant.proper (h : t.Variant u) (ht : t.Proper) : u.Proper := by
  rcases h with rfl | ⟨s, rule, -, rfl, rfl⟩
  · exact ht
  · trivial

theorem Leads.proper (h : t.Leads w u) : u.Proper := by
  cases h with
  | asks hneeds =>
    rename_i op use
    cases use with
    | insert s h save =>
      cases op with
      | registry op =>
        cases op with
        | insert => exact hneeds.2.2
        | _ => exact hneeds.elim
      | handle op | host op | key op | keySet op => cases op <;> exact hneeds.elim
    | _ => trivial
  | @awaits use o hprobe =>
    intro h hfresh
    rw [hfresh] at hprobe
    exact hprobe
  | _ => trivial

/-- What a proper job stores is a key of an object. -/
theorem Proper.handle_ne_none (ht : t.Proper) {s : Nat} (ha : t.action? w = some (s, .insert k)) :
    k.handle ≠ none := by
  cases t with
  | perform step =>
    cases step with
    | op op =>
      cases op with
      | registry op =>
        cases op with
        | insertKey s' r save =>
          obtain ⟨key, -, ha⟩ := Option.bind_eq_some_iff.1 ha
          split at ha
          · cases ha
          · rename_i hnull
            cases ha
            exact hnull
        | get s' n | removeId s' n dest =>
          obtain ⟨id, -, ha⟩ := Option.map_eq_some_iff.1 ha
          cases ha
        | _ => cases ha
      | _ => cases ha
    | batch => cases ha
  | ask use =>
    simp only [action?] at ha
    split at ha
    · rename_i hnull
      cases use with
      | insert => exact absurd hnull ht
      | _ => cases ha
    · cases ha
  | hashed o use =>
    cases hout : w.hashOutcome o with
    | error e => simp [action?, hout, HashUse.action?] at ha
    | ok hash =>
      simp only [action?, hout] at ha
      cases use with
      | insert s' h save =>
        cases ha
        rw [ht h rfl]
        exact Option.some_ne_none o
      | _ => cases ha
  | screen sc =>
    simp only [action?] at ha
    split at ha <;> cases ha
  | _ => cases ha

end Job

/-! ## Keys that fit -/

/-- The key has the hash that `f` gives its object; null has the hash zero. -/
def Key.Fits (f : ObjectId → HashOutcome) (k : Key) : Prop :=
  k.handle.elim (.ok 0) f = .ok k.hash

/-- Keys that fit are equal if they are on one object. -/
theorem Key.Fits.ext {f : ObjectId → HashOutcome} {k k' : Key} (hk : k.Fits f) (hk' : k'.Fits f)
    (h : k.handle = k'.handle) : k = k' := by
  obtain ⟨handle, hash⟩ := k
  obtain ⟨handle', hash'⟩ := k'
  obtain rfl : handle = handle' := h
  have : (.ok hash : HashOutcome) = .ok hash' := hk.symm.trans hk'
  rw [Except.ok.inj this]

theorem Job.Makes.fits {w : World} {t : Job} {k : Key} {f : ObjectId → HashOutcome}
    (h : t.Makes w k) (ht : t.Proper) (hf : ∀ o, w.hashOutcome o = f o) : k.Fits f := by
  cases t with
  | ask use =>
    obtain ⟨-, rfl⟩ := h
    rfl
  | hashed o use =>
    obtain ⟨hprobe, hhash⟩ := h
    unfold Key.Fits
    rw [ht _ hprobe, ← hhash]
    exact (hf o).symm
  | _ => exact h.elim

namespace World

/-- No registry has an entry on null. -/
def Peopled (w : World) : Prop :=
  ∀ s id k, (w.registry s).get? id = some k → k.handle ≠ none

/-- Every key there is has the hash that `f` gives its object. -/
structure Keyed (f : ObjectId → HashOutcome) (w : World) : Prop where
  shelved : ∀ k, w.Shelved k → k.Fits f
  stored : ∀ s id k, (w.registry s).get? id = some k → k.Fits f

variable {objects : List ForeignObject} {w : World}

theorem get?_init (s : Nat) (id : ListenerId) : ((init objects).registry s).get? id = none := by
  have hempty : (init objects).registry s = .empty := Bank.read_empty s
  rw [hempty]
  exact SlotTable.get?_empty id

theorem peopled_init (objects : List ForeignObject) : (init objects).Peopled := by
  intro s id k h
  rw [get?_init] at h
  cases h

theorem keyed_init (f : ObjectId → HashOutcome) : (init objects).Keyed f where
  shelved k h := by
    rcases h with ⟨r, h⟩ | h
    · have hempty : (init objects).key? r = none := Bank.read_empty r
      rw [hempty] at h
      cases h
    · cases h
  stored s id k h := by
    rw [get?_init] at h
    cases h

/-- The objects answer as they did in the beginning. -/
def Steady (objects : List ForeignObject) (w : World) : Prop :=
  ∀ o < objects.length, w.hashOutcome o = (init objects).hashOutcome o

instance (objects : List ForeignObject) (w : World) : Decidable (w.Steady objects) := by
  unfold Steady
  infer_instance

theorem hashOutcome_of_length_le {o : ObjectId} (h : w.objects.length ≤ o) :
    w.hashOutcome o = .ok 0 := by
  rw [hashOutcome, List.getElem?_eq_none h]
  rfl

theorem Steady.hashOutcome {hs : List Handle} (h : w.Steady objects) (hw : w.Balanced objects hs)
    (o : ObjectId) : w.hashOutcome o = (init objects).hashOutcome o := by
  by_cases ho : o < objects.length
  · exact h o ho
  · have hle : objects.length ≤ o := Nat.le_of_not_lt ho
    rw [hashOutcome_of_length_le (hw.length.trans_le hle), hashOutcome_of_length_le hle]

end World

/-! ## Turns and runs -/

namespace Machine

/-- All jobs that wait are proper. -/
def Proper (m : Machine) : Prop := ∀ u ∈ m.jobs, u.Proper

theorem proper_session (objects : List ForeignObject) (steps : List Step) :
    (session objects steps).Proper := by
  intro u hu
  obtain ⟨step, -, rfl⟩ := List.mem_map.1 hu
  trivial

theorem Turn.proper {a b : Machine} (h : Turn a b) (hw : a.world.Consistent) (ha : a.Proper) :
    b.Proper := by
  obtain ⟨w, t, rest, rfl, ⟨f, -, rfl⟩ | ⟨t', out, w', above, -, hrun, -, habove, rfl⟩⟩ := h.inv
  · exact ha
  intro u hu
  simp only [List.mem_append] at hu
  rcases hu with hu | hu | hu
  · exact Job.proper_of_foreign (habove u hu)
  · exact (Job.leads_run hw hrun u hu).proper
  · exact ha u (List.mem_cons_of_mem _ hu)

theorem Turn.peopled {a b : Machine} (h : Turn a b) (hw : a.world.Consistent) (ht : a.Proper)
    (ha : a.world.Peopled) : b.world.Peopled := by
  obtain ⟨w, t, rest, rfl, ⟨f, -, rfl⟩ | ⟨t', out, w', above, ht', hrun, hw', -, rfl⟩⟩ := h.inv
  · exact ha
  intro s id k hk
  have hk : (out.world.registry s).get? id = some k := by
    rcases hw' with rfl | ⟨hook, -, rfl⟩ <;> exact hk
  rcases Job.get?_run hw hrun hk with hold | hinsert
  · exact ha s id k hold
  · exact (ht'.proper (ht t List.mem_cons_self)).handle_ne_none hinsert

theorem Turn.keyed {a b : Machine} (h : Turn a b) (hw : a.world.Consistent) (ht : a.Proper)
    {f : ObjectId → HashOutcome} (hf : ∀ o, a.world.hashOutcome o = f o) (ha : a.world.Keyed f) :
    b.world.Keyed f := by
  obtain ⟨w, t, rest, rfl, ⟨f, -, rfl⟩ | ⟨t', out, w', above, ht', hrun, hw', -, rfl⟩⟩ := h.inv
  · exact ha
  have hproper : t'.Proper := ht'.proper (ht t List.mem_cons_self)
  have hout : out.world.Keyed f := by
    constructor
    · intro k hk
      rcases Job.shelved_run hrun hk with hold | hmakes
      · exact ha.shelved k hold
      · exact hmakes.fits hproper hf
    · intro s id k hk
      rcases Job.get?_run hw hrun hk with hold | hinsert
      · exact ha.stored s id k hold
      · rcases Job.shelved_of_insert hinsert with hold | hmakes
        · exact ha.shelved k hold
        · exact hmakes.fits hproper hf
  rcases hw' with rfl | ⟨hook, -, rfl⟩
  · exact hout
  · exact ⟨hout.shelved, hout.stored⟩

variable {objects : List ForeignObject} {steps : List Step} {ms : List Machine} {m : Machine}

/-- No registry ever has an entry on null. -/
theorem Run.peopled (h : Run (session objects steps) ms m) :
    ∀ a ∈ m :: ms, a.world.Peopled := by
  obtain ⟨hm, hms⟩ := h.preserves
    (P := fun a => a.world.Consistent ∧ a.Proper ∧ a.world.Peopled)
    (fun _ _ ha hab =>
      ⟨hab.consistent ha.1, hab.proper ha.1 ha.2.1, hab.peopled ha.1 ha.2.1 ha.2.2⟩)
    ⟨World.consistent_init objects, proper_session objects steps, World.peopled_init objects⟩
  rintro a (_ | ⟨_, ha⟩)
  · exact hm.2.2
  · exact (hms a ha).2.2

/-- **Stored hashes stay true.** As long as the objects answer as they did in the
beginning, every key has the hash of its object, no matter when it was made. -/
theorem Run.keyed (h : Run (session objects steps) ms m)
    (hsteady : ∀ a ∈ ms, a.world.Steady objects) :
    ∀ a ∈ m :: ms, a.world.Keyed (World.init objects).hashOutcome := by
  have hbalanced := h.balanced
  obtain ⟨hm, hms⟩ := h.preserves_of
    (P := fun a => a.world.Consistent ∧ a.Proper ∧ a.world.Keyed (World.init objects).hashOutcome)
    (Q := fun a => ∀ o, a.world.hashOutcome o = (World.init objects).hashOutcome o)
    (fun _ _ ha hf hab =>
      ⟨hab.consistent ha.1, hab.proper ha.1 ha.2.1, hab.keyed ha.1 ha.2.1 hf ha.2.2⟩)
    (fun a ha => (hsteady a ha).hashOutcome (hbalanced a (List.mem_cons_of_mem _ ha)))
    ⟨World.consistent_init objects, proper_session objects steps, World.keyed_init _⟩
  rintro a (_ | ⟨_, ha⟩)
  · exact hm.2.2
  · exact (hms a ha).2.2

end Machine

end ListenerRegistry
