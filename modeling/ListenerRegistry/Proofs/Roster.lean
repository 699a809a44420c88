import ListenerRegistry.Registry
import ListenerRegistry.Proofs.SlotTable

/-!
# Rosters

A roster is a registry without its index and without its monitor: a slot table
of keys, in which everything is found by going through the entries. Nothing can
go wrong in it. It is the plain counterpart that registries are compared with.
-/

namespace ListenerRegistry

/-- The slots of a registry, taken by themselves. -/
abbrev Roster := SlotTable Key

namespace Roster

/-- The id of the entry that holds the key `k`. -/
def idOf? (m : Roster) (k : Key) : Option ListenerId :=
  (m.entries.find? fun e => e.2 = k).map (·.1)

/-- Stores a key, unless the roster has it. -/
def add (m : Roster) (k : Key) : Option ListenerId × Roster :=
  match idOf? m k with
  | some _ => (none, m)
  | none => (some (m.insert k).1, (m.insert k).2)

/-- Takes out the entry `id`; nothing happens for a stale id. -/
def take (m : Roster) (id : ListenerId) : Option Key × Roster :=
  match m.remove id with
  | some (k, m) => (some k, m)
  | none => (none, m)

/-- Takes out several entries in order, skipping stale ids. -/
def strike (m : Roster) : List ListenerId → List (ListenerId × Key) × Roster
  | [] => ([], m)
  | id :: ids =>
      let (found, m) := take m id
      let (rest, m) := strike m ids
      ((found.map fun k => (id, k)).toList ++ rest, m)

/-- Takes out the entry that holds the key `k`. -/
def withdraw (m : Roster) (k : Key) : Option Key × Roster :=
  match idOf? m k with
  | some id => take m id
  | none => (none, m)

variable {m m' : Roster} {id : ListenerId} {k : Key}

theorem mem_entries_of_idOf? (h : idOf? m k = some id) : (id, k) ∈ m.entries := by
  obtain ⟨⟨id', k'⟩, hfind, rfl⟩ := Option.map_eq_some_iff.1 h
  have hk : k' = k := by simpa using List.find?_some hfind
  exact hk ▸ List.mem_of_find?_eq_some hfind

theorem idOf?_eq_none_iff : idOf? m k = none ↔ k ∉ m.entries.map (·.2) := by
  simp only [idOf?, Option.map_eq_none_iff, List.find?_eq_none, List.mem_map, decide_eq_true_eq]
  constructor
  · rintro h ⟨e, he, hk⟩
    exact h e he hk
  · intro h e he hk
    exact h ⟨e, he, hk⟩

/-- Where no key is held twice, a key has one id. -/
theorem id_unique (h : (m.entries.map (·.2)).Nodup) {id' : ListenerId}
    (hm : (id, k) ∈ m.entries) (hm' : (id', k) ∈ m.entries) : id = id' := by
  have := List.inj_on_of_nodup_map h hm hm' rfl
  exact congrArg (·.1) this

theorem idOf?_eq_some_iff (h : (m.entries.map (·.2)).Nodup) :
    idOf? m k = some id ↔ (id, k) ∈ m.entries := by
  refine ⟨mem_entries_of_idOf?, fun hm => ?_⟩
  cases hid : idOf? m k with
  | none => exact absurd (List.mem_map.2 ⟨_, hm, rfl⟩) (idOf?_eq_none_iff.1 hid)
  | some id' => rw [id_unique h hm (mem_entries_of_idOf? hid)]

theorem add_of_present (h : idOf? m k = some id) : add m k = (none, m) := by
  simp [add, h]

theorem add_of_absent (h : idOf? m k = none) :
    add m k = (some (m.insert k).1, (m.insert k).2) := by
  simp [add, h]

theorem take_of_remove (h : m.remove id = some (k, m')) : take m id = (some k, m') := by
  simp [take, h]

theorem take_of_stale (h : m.remove id = none) : take m id = (none, m) := by
  simp [take, h]

end Roster

end ListenerRegistry
