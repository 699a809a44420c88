import ListenerRegistry.SlotTable

/-!
# Hash index

A table of ids, each filed under a 64-bit hash. The table knows nothing about
what the ids stand for: a lookup is told by its caller which of the ids under a
hash is meant, and a table that grows asks for the hash of every id it holds.
-/

namespace ListenerRegistry

structure Filing where
  hash : UInt64
  id : SlotId
deriving DecidableEq, Repr

structure HashIndex where
  filed : List Filing
deriving DecidableEq, Repr

namespace HashIndex

def empty : HashIndex := ⟨[]⟩

instance : Inhabited HashIndex := ⟨empty⟩

/-- The id under `hash` for which `same` holds. -/
def find? (x : HashIndex) (hash : UInt64) (same : SlotId → Bool) : Option SlotId :=
  (x.filed.find? fun f => f.hash == hash && same f.id).map (·.id)

/-- A table is full when its size has reached a power of two. -/
def isFull (x : HashIndex) : Bool :=
  x.filed.length &&& (x.filed.length - 1) == 0

/-- Files every id anew, under the hash that `hashOf` gives it. -/
def rebuild (x : HashIndex) (hashOf : SlotId → UInt64) : HashIndex :=
  ⟨x.filed.map fun f => ⟨hashOf f.id, f.id⟩⟩

/-- Files `id` under `hash`. A full table is rebuilt first. -/
def insert (x : HashIndex) (hashOf : SlotId → UInt64) (hash : UInt64) (id : SlotId) : HashIndex :=
  let x := if x.isFull then x.rebuild hashOf else x
  ⟨⟨hash, id⟩ :: x.filed⟩

/-- Takes out the filing of `id` under `hash`, if there is one. -/
def erase? (x : HashIndex) (hash : UInt64) (id : SlotId) : Option HashIndex :=
  if ⟨hash, id⟩ ∈ x.filed then some ⟨x.filed.erase ⟨hash, id⟩⟩ else none

end HashIndex

end ListenerRegistry
