import ListenerRegistry.Handle
import ListenerRegistry.HashIndex
import ListenerRegistry.Monitor

/-!
# The registry of listeners

A registry is a set of listeners, keyed by identity. Each entry has an id that
stays valid until the entry is removed. Entries live in generational slots and
are found through an index over their stored hashes.

Every operation here is one stretch of library code: it calls nothing outside
and releases nothing. Handles that leave the registry are returned, and whoever
called decides when to release them. The stretches in which slots and index may
disagree are sections of the registry's monitor.
-/

namespace ListenerRegistry

/-- The id of a registered listener. -/
abbrev ListenerId := SlotId

/-- An id as text. -/
def ListenerId.render (id : ListenerId) : String :=
  "ListenerId(DefaultKey(" ++ toString id.index ++ "v" ++ toString id.version.toNat ++ "))"

structure Registry where
  slots : SlotTable Key
  index : HashIndex
  monitor : Monitor
deriving DecidableEq, Repr

namespace Registry

def empty : Registry := ⟨.empty, .empty, .idle⟩

instance : Inhabited Registry := ⟨empty⟩

/-- The number of entries. -/
def size (r : Registry) : Nat := r.slots.size

/-- The key stored under `id`. -/
def get? (r : Registry) (id : ListenerId) : Option Key := r.slots.get? id

/-- The numbers of the registry's slots, in iteration order. -/
def slotNumbers (r : Registry) : List Nat := r.slots.numbers

/-- The entry that slot `i` holds at present. -/
def entryAt? (r : Registry) (i : Nat) : Option (ListenerId × Key) := r.slots.entryAt? i

/-- The entries in iteration order, which is the order of their slots. -/
def entries (r : Registry) : List (ListenerId × Key) := r.slots.entries

/-- Runs `body` in the section `name`, which is closed again afterwards. -/
def guarded {α : Type} (r : Registry) (name : String)
    (body : Registry → Except Fault (α × Registry)) : Except Fault (α × Registry) := do
  let monitor ← r.monitor.enter name
  let (a, r) ← body { r with monitor }
  let monitor ← r.monitor.leave
  return (a, { r with monitor })

/-- The hash stored with the entry `id`. -/
def hashOf (r : Registry) (id : ListenerId) : UInt64 :=
  match r.get? id with
  | some k => k.hash
  | none => 0

/-- Whether the entry `id` is on the object that `probe` refers to. -/
def holds (r : Registry) (probe : Handle) (id : ListenerId) : Bool :=
  match r.get? id with
  | some k => k.handle == probe
  | none => false

/-- The entry filed under `hash` on the object of `probe`. -/
def lookup (r : Registry) (hash : UInt64) (probe : Handle) : Option ListenerId :=
  r.index.find? hash (r.holds probe)

/-- Stores a key and answers its id, or nothing if the key is present. -/
def register (r : Registry) (k : Key) : Except Fault (Option ListenerId × Registry) :=
  r.guarded "insert" fun r =>
    match r.lookup k.hash k.handle with
    | some _ => .ok (none, r)
    | none =>
        let (id, slots) := r.slots.insert k
        .ok (some id, { r with slots, index := r.index.insert r.hashOf k.hash id })

/-- Looks an object up whose hash is known. -/
def locate (r : Registry) (hash : UInt64) (probe : Handle) :
    Except Fault (Option ListenerId × Registry) :=
  r.guarded "find" fun r => .ok (r.lookup hash probe, r)

/-- Unlinks the entry `id` and hands out its key; nothing happens for a stale
id. -/
def unlink (r : Registry) (id : ListenerId) : Except Fault (Option Key × Registry) :=
  r.guarded "remove" fun r =>
    match r.slots.remove id with
    | none => .ok (none, r)
    | some (k, slots) =>
        match r.index.erase? k.hash id with
        | none => .error .unindexed
        | some index => .ok (some k, { r with slots, index })

/-- Unlinks several entries in order, skipping stale ids. -/
def prune (r : Registry) : List ListenerId → Except Fault (List (ListenerId × Key) × Registry)
  | [] => .ok ([], r)
  | id :: ids => do
      let (found, r) ← r.unlink id
      let (rest, r) ← r.prune ids
      return ((found.map fun k => (id, k)).toList ++ rest, r)

/-- Unlinks every entry and hands out their keys in iteration order. -/
def drain (r : Registry) : Except Fault (List Key × Registry) :=
  r.guarded "clear" fun r =>
    let (keys, slots) := r.slots.drain
    .ok (keys, { r with slots, index := .empty })

/-! ## Controls -/

namespace Control

def a : Key := ⟨some 0, 7⟩
def b : Key := ⟨some 1, 7⟩

def both : Except Fault (Option ListenerId × Registry) := do
  let (_, r) ← empty.register a
  r.register b

/-- Objects with one hash are different listeners. -/
example : both.map (·.1) = .ok (some ⟨2, 1⟩) := by rfl

example : (both.bind fun (_, r) => r.locate 7 (some 1)).map (·.1) = .ok (some ⟨2, 1⟩) := by rfl

/-- A listener registered twice is refused. -/
example : (both.bind fun (_, r) => r.register a).map (·.1) = .ok none := by rfl

/-- A slot is used again under a new version, and the old id stays stale. -/
example : (do
    let (_, r) ← both
    let (_, r) ← r.unlink ⟨1, 1⟩
    let (id, r) ← r.register a
    return (id, r.get? ⟨1, 1⟩) : Except Fault _) = .ok (some ⟨1, 3⟩, none) := by rfl

/-- After emptying, the last slot is used first. -/
example : (do
    let (_, r) ← both
    let (_, r) ← r.drain
    let (id, _) ← r.register a
    return id : Except Fault _) = .ok (some ⟨2, 3⟩) := by rfl

end Control

end Registry

end ListenerRegistry
