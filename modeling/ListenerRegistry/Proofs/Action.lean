import ListenerRegistry.Machine
import ListenerRegistry.Proofs.Registry

/-!
# Atomic operations on registries

Whatever an operation does to a registry, it does in one go, as an action that
is answered by a reply. Actions are performed on registries, and they can be
applied to rosters; on a sound registry both come to the same (`perform_eq`).
`Job.action?` says which action a job takes, if it takes one.
-/

namespace ListenerRegistry

/-- What can be done to a registry, or read off it, in one go. -/
inductive Action where
  | insert (k : Key)
  /-- Look for the entry that holds a key. -/
  | find (k : Key)
  /-- Take out the entry that holds a key. -/
  | withdraw (k : Key)
  | removeId (id : ListenerId)
  /-- Take out the entries that a retaining step rejected. -/
  | strike (ids : List ListenerId)
  | clear
  | discard
  | get (id : ListenerId)
  | size
  | entries
deriving DecidableEq, Repr

inductive Reply where
  | id (id : Option ListenerId)
  | key (k : Option Key)
  | struck (es : List (ListenerId × Key))
  | emptied (ks : List Key)
  | size (n : Nat)
  | entries (es : List (ListenerId × Key))
deriving DecidableEq, Repr

/-- Applies an action to a roster. -/
def Roster.apply (m : Roster) : Action → Reply × Roster
  | .insert k => (.id (Roster.add m k).1, (Roster.add m k).2)
  | .find k => (.id (Roster.idOf? m k), m)
  | .withdraw k => (.key (Roster.withdraw m k).1, (Roster.withdraw m k).2)
  | .removeId id => (.key (Roster.take m id).1, (Roster.take m id).2)
  | .strike ids => (.struck (Roster.strike m ids).1, (Roster.strike m ids).2)
  | .clear => (.emptied m.drain.1, m.drain.2)
  | .discard => (.emptied (m.entries.map (·.2)), .empty)
  | .get id => (.key (m.get? id), m)
  | .size => (.size m.entries.length, m)
  | .entries => (.entries m.entries, m)

/-- Performs an action on a registry. -/
def Registry.perform (r : Registry) : Action → Except Fault (Reply × Registry)
  | .insert k => do
      let (id?, r) ← r.register k
      return (.id id?, r)
  | .find k => do
      let (id?, r) ← r.locate k.hash k.handle
      return (.id id?, r)
  | .withdraw k => do
      let (id?, r) ← r.locate k.hash k.handle
      match id? with
      | none => return (.key none, r)
      | some id =>
          let (found, r) ← r.unlink id
          return (.key found, r)
  | .removeId id => do
      let (found, r) ← r.unlink id
      return (.key found, r)
  | .strike ids => do
      let (removed, r) ← r.prune ids
      return (.struck removed, r)
  | .clear => do
      let (keys, r) ← r.drain
      return (.emptied keys, r)
  | .discard => .ok (.emptied (r.entries.map (·.2)), .empty)
  | .get id => .ok (.key (r.get? id), r)
  | .size => .ok (.size r.size, r)
  | .entries => .ok (.entries r.entries, r)

/-- **On a sound registry an action succeeds**, does to the slots what it does
to a roster, is answered alike, and leaves a sound registry. -/
theorem Registry.perform_eq {r : Registry} (h : r.Sound) (a : Action) :
    ∃ r', r.perform a = .ok ((Roster.apply r.slots a).1, r') ∧
      r'.slots = (Roster.apply r.slots a).2 ∧ r'.Sound := by
  cases a with
  | insert k =>
    obtain ⟨r', hr, hslots, hsound⟩ := register_eq h k
    exact ⟨r', by simp [perform, hr, Roster.apply, bind, Except.bind, pure, Except.pure],
      hslots, hsound⟩
  | find k =>
    have hr := locate_eq h k.hash k.handle
    exact ⟨r, by simp [perform, hr, Roster.apply, bind, Except.bind, pure, Except.pure], rfl, h⟩
  | withdraw k =>
    have hr := locate_eq h k.hash k.handle
    cases hid : Roster.idOf? r.slots k with
    | none =>
      refine ⟨r, ?_, ?_, h⟩
      · simp [perform, hr, hid, Roster.apply, Roster.withdraw, bind, Except.bind, pure, Except.pure]
      · simp [Roster.apply, Roster.withdraw, hid]
    | some id =>
      obtain ⟨r', hr', hslots, hsound⟩ := unlink_eq h id
      refine ⟨r', ?_, ?_, hsound⟩
      · simp [perform, hr, hr', hid, Roster.apply, Roster.withdraw, bind, Except.bind, pure,
          Except.pure]
      · simp [Roster.apply, Roster.withdraw, hid, hslots]
  | removeId id =>
    obtain ⟨r', hr, hslots, hsound⟩ := unlink_eq h id
    exact ⟨r', by simp [perform, hr, Roster.apply, bind, Except.bind, pure, Except.pure],
      hslots, hsound⟩
  | strike ids =>
    obtain ⟨r', hr, hslots, hsound⟩ := prune_eq h ids
    exact ⟨r', by simp [perform, hr, Roster.apply, bind, Except.bind, pure, Except.pure],
      hslots, hsound⟩
  | clear =>
    obtain ⟨r', hr, hslots, hsound⟩ := drain_eq h
    exact ⟨r', by simp [perform, hr, Roster.apply, bind, Except.bind, pure, Except.pure],
      hslots, hsound⟩
  | discard => exact ⟨_, rfl, rfl, sound_empty⟩
  | get id => exact ⟨r, rfl, rfl, h⟩
  | size => exact ⟨r, by simp [perform, size, Roster.apply, h.slots.size_eq], rfl, h⟩
  | entries => exact ⟨r, rfl, rfl, h⟩

/-! ## What performing an action comes to -/

namespace Registry

variable {r r' : Registry} {reply : Reply}

theorem register_of_perform {k : Key} (h : r.perform (.insert k) = .ok (reply, r')) :
    ∃ id?, r.register k = .ok (id?, r') ∧ reply = .id id? := by
  simp only [perform, bind, Except.bind] at h
  split at h
  · cases h
  · rename_i v hv
    cases h
    exact ⟨v.1, hv, rfl⟩

theorem locate_of_perform {k : Key} (h : r.perform (.find k) = .ok (reply, r')) :
    ∃ id?, r.locate k.hash k.handle = .ok (id?, r') ∧ reply = .id id? := by
  simp only [perform, bind, Except.bind] at h
  split at h
  · cases h
  · rename_i v hv
    cases h
    exact ⟨v.1, hv, rfl⟩

theorem unlink_of_perform {id : ListenerId} (h : r.perform (.removeId id) = .ok (reply, r')) :
    ∃ found, r.unlink id = .ok (found, r') ∧ reply = .key found := by
  simp only [perform, bind, Except.bind] at h
  split at h
  · cases h
  · rename_i v hv
    cases h
    exact ⟨v.1, hv, rfl⟩

/-- Taking out the entry of a key is looking it up and unlinking what was found. -/
theorem unlink_of_perform_withdraw {k : Key} (h : r.perform (.withdraw k) = .ok (reply, r')) :
    (r.locate k.hash k.handle = .ok (none, r') ∧ reply = .key none) ∨
      ∃ id r₁, r.locate k.hash k.handle = .ok (some id, r₁) ∧
        r₁.perform (.removeId id) = .ok (reply, r') := by
  simp only [perform, bind, Except.bind] at h ⊢
  split at h
  · cases h
  · rename_i v hv
    obtain ⟨id?, r₁⟩ := v
    cases id? with
    | none =>
      cases h
      exact Or.inl ⟨hv, rfl⟩
    | some id => exact Or.inr ⟨id, r₁, hv, h⟩

theorem prune_of_perform {ids : List ListenerId} (h : r.perform (.strike ids) = .ok (reply, r')) :
    ∃ removed, r.prune ids = .ok (removed, r') ∧ reply = .struck removed := by
  simp only [perform, bind, Except.bind] at h
  split at h
  · cases h
  · rename_i v hv
    cases h
    exact ⟨v.1, hv, rfl⟩

theorem drain_of_perform (h : r.perform .clear = .ok (reply, r')) :
    ∃ keys, r.drain = .ok (keys, r') ∧ reply = .emptied keys := by
  simp only [perform, bind, Except.bind] at h
  split at h
  · cases h
  · rename_i v hv
    cases h
    exact ⟨v.1, hv, rfl⟩

end Registry

/-! ## The action of a job -/

/-- The action that an operation starts with; operations that hash first take
theirs later. -/
def RegistryOp.action? (w : World) : RegistryOp → Option (Nat × Action)
  | insertKey s k _ =>
      (w.key? k).bind fun key => if key.handle = none then none else some (s, .insert key)
  | get s n => (w.savedId? n).map fun id => (s, .get id)
  | removeId s n _ => (w.savedId? n).map fun id => (s, .removeId id)
  | clear s => some (s, .clear)
  | discard s => some (s, .discard)
  | size s => some (s, .size)
  | entries s => some (s, .entries)
  | insert .. | find .. | contains .. | remove .. | sameId .. | retain .. => none

/-- The action that an operation takes once the hash is known. -/
def HashUse.action? (w : World) : HashOutcome → HashUse → Option (Nat × Action)
  | .ok hash, insert s h _ => some (s, .insert ⟨h, hash⟩)
  | .ok hash, find s probe _ => some (s, .find ⟨probe.handle w, hash⟩)
  | .ok hash, contains s probe => some (s, .find ⟨probe.handle w, hash⟩)
  | .ok hash, remove s probe _ => some (s, .withdraw ⟨probe.handle w, hash⟩)
  | _, _ => none

/-- The registry that a job acts on, and the action. -/
def Job.action? (w : World) : Job → Option (Nat × Action)
  | perform (.op (.registry op)) => op.action? w
  | ask use => if use.probe.handle w = none then use.action? w (.ok 0) else none
  | hashed o use => use.action? w (w.hashOutcome o)
  | screen s => if s.pending = [] then some (s.registry, .strike s.doomed.reverse) else none
  | _ => none

/-! ## Answers -/

namespace Reply

/-- The answer to a request to store a listener. -/
def stored : Reply → Answer
  | .id (some i) => .located (some i)
  | _ => .failed .duplicateListener

/-- The key in a reply. -/
def found : Reply → Option Key
  | key k => k
  | _ => none

/-- The id in a reply. -/
def id? : Reply → Option ListenerId
  | .id i => i
  | _ => none

/-- The entries in a reply. -/
def listed : Reply → List (ListenerId × Key)
  | struck es | entries es => es
  | _ => []

/-- The number in a reply. -/
def number : Reply → Nat
  | size n => n
  | _ => 0

end Reply

/-- What an operation answers when its action got a reply. -/
def RegistryOp.conclude (reply : Reply) : RegistryOp → Answer
  | insert .. | insertKey .. => reply.stored
  | find .. => .located reply.id?
  | contains .. => .verdict reply.id?.isSome
  | remove .. => .withdrawn (reply.found.bind Key.handle)
  | get .. | removeId .. => .entry (reply.found.bind Key.handle)
  | retain .. => .count reply.listed.length
  | clear .. => .cleared
  | discard .. => .dropped
  | size .. => .size reply.number
  | entries .. => .entries (reply.listed.map fun (id, k) => (id, k.handle))
  | sameId .. => .done

/-- What an operation that asked for a hash answers when its action got a
reply. -/
def HashUse.conclude (reply : Reply) : HashUse → Answer
  | insert .. => reply.stored
  | find .. => .located reply.id?
  | contains .. => .verdict reply.id?.isSome
  | remove .. => .withdrawn (reply.found.bind Key.handle)
  | _ => .done

/-- What the operation that a job belongs to answers when the job's action got a
reply. -/
def Job.conclude (reply : Reply) : Job → Answer
  | perform (.op (.registry op)) => op.conclude reply
  | ask use | hashed _ use => use.conclude reply
  | screen _ => .count reply.listed.length
  | _ => .done

end ListenerRegistry
