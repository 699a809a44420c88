import ListenerRegistry.Proofs.Directory
import Mathlib.Data.List.Nodup

/-!
# Veiled registries

A veil makes every hash zero and leaves everything else as it is. Where the stored
hashes fit, keys can still be told apart under the veil, and whatever a registry does,
it does under the veil as well: it answers the same ids and finds the same entries.
-/

namespace ListenerRegistry

/-! ## Changing the values of a list, of a bank and of a slot table -/

section

variable {α β : Type} {g : α → β}

theorem map_modify {f : α → α} {h : β → β} (hf : ∀ a, g (f a) = h (g a)) (xs : List α) (i : Nat) :
    (xs.modify i f).map g = (xs.map g).modify i h := by
  refine List.ext_getElem? fun j => ?_
  rw [List.getElem?_map, List.getElem?_modify, List.getElem?_modify, List.getElem?_map]
  cases xs[j]? with
  | none => rfl
  | some a =>
    by_cases hij : i = j
    · simp [hij, hf]
    · simp [hij]

/-- A value that can still be told from the others is taken out. -/
theorem map_erase_of_inj [DecidableEq α] [DecidableEq β] {a : α} {xs : List α}
    (h : ∀ b ∈ xs, g b = g a → b = a) : (xs.erase a).map g = (xs.map g).erase (g a) := by
  induction xs with
  | nil => rfl
  | cons b xs ih =>
    rw [List.forall_mem_cons] at h
    by_cases hb : b = a
    · subst hb
      simp
    · have hg : g b ≠ g a := fun hg => hb (h.1 hg)
      simp [hb, hg, ih h.2]

end

namespace Bank

variable {α β : Type} [Inhabited α] [Inhabited β] (g : α → β)

/-- Changes what every register holds. The default has to stay the default. -/
def map (b : Bank α) : Bank β := ⟨b.cells.map g⟩

variable {g} (hg : g default = default)
include hg

theorem read_map (b : Bank α) (r : Nat) : (b.map g).read r = g (b.read r) := by
  unfold read map
  rw [List.getElem?_map]
  cases b.cells[r]? with
  | none => exact hg.symm
  | some a => rfl

theorem map_writeCells : ∀ (cells : List α) (r : Nat) (a : α),
    (writeCells cells r a).map g = writeCells (cells.map g) r (g a)
  | [], 0, _ => rfl
  | [], r + 1, a => by
    rw [writeCells, List.map_cons, hg, map_writeCells [] r a]
    rfl
  | _ :: _, 0, _ => rfl
  | c :: cells, r + 1, a => by
    rw [writeCells, List.map_cons, map_writeCells cells r a]
    rfl

theorem map_write (b : Bank α) (r : Nat) (a : α) : (b.write r a).map g = (b.map g).write r (g a) :=
  congrArg Bank.mk (map_writeCells hg b.cells r a)

end Bank

/-- Changes the value in a slot. -/
def Slot.map {α β : Type} (g : α → β) (s : Slot α) : Slot β := ⟨s.version, s.content.map g⟩

namespace SlotTable

variable {α β : Type} (g : α → β) (m : SlotTable α)

/-- Changes all values and leaves the slots as they are. -/
def map : SlotTable β := ⟨m.slots.map (Slot.map g), m.vacant, m.size⟩

theorem slotAt?_map (i : Nat) : (m.map g).slotAt? i = (m.slotAt? i).map (Slot.map g) := by
  unfold slotAt? map
  split
  · rfl
  · rw [List.getElem?_map]

theorem numbers_map : (m.map g).numbers = m.numbers := by
  simp [numbers, map]

theorem entryAt?_map (i : Nat) :
    (m.map g).entryAt? i = (m.entryAt? i).map fun e => (e.1, g e.2) := by
  unfold entryAt?
  rw [slotAt?_map]
  cases m.slotAt? i with
  | none => rfl
  | some s => cases hc : s.content <;> simp [Slot.map, hc]

theorem get?_map (id : SlotId) : (m.map g).get? id = (m.get? id).map g := by
  unfold get?
  rw [slotAt?_map]
  cases m.slotAt? id.index with
  | none => rfl
  | some s =>
    show (if s.version = id.version then s.content.map g else none) = _
    rw [apply_ite (Option.map g)]
    rfl

theorem entries_map : (m.map g).entries = m.entries.map fun e => (e.1, g e.2) := by
  rw [entries_eq_filterMap, entries_eq_filterMap, numbers_map, List.map_filterMap]
  congr 1
  funext i
  exact entryAt?_map g m i

theorem insert_map (a : α) : (m.map g).insert (g a) = ((m.insert a).1, (m.insert a).2.map g) := by
  obtain ⟨slots, vacant, size⟩ := m
  cases vacant with
  | nil => simp [insert, map, Slot.map]
  | cons i vacant =>
    have hversion : ((slots.map (Slot.map g))[i]?).elim 0 Slot.version =
        (slots[i]?).elim 0 Slot.version := by
      rw [List.getElem?_map]
      cases slots[i]? <;> rfl
    simp only [insert, map, hversion, map_modify (g := Slot.map g) (f := (·.fill a))
      (h := (·.fill (g a))) (fun _ => rfl)]

theorem remove_map (id : SlotId) :
    (m.map g).remove id = (m.remove id).map fun x => (g x.1, x.2.map g) := by
  unfold remove
  rw [get?_map]
  cases m.get? id with
  | none => rfl
  | some a =>
    simp only [Option.map_some, map, map_modify (g := Slot.map g) (f := Slot.vacate)
      (h := Slot.vacate) (fun _ => rfl)]

theorem drain_map : (m.map g).drain = (m.drain.1.map g, m.drain.2.map g) := by
  have hslot (s : Slot α) : (s.map g).drain = s.drain.map g := by
    obtain ⟨version, content⟩ := s
    cases content <;> rfl
  have hslots : (m.map g).slots.map Slot.drain = (m.slots.map Slot.drain).map (Slot.map g) := by
    show (m.slots.map (Slot.map g)).map Slot.drain = _
    rw [List.map_map, List.map_map]
    exact List.map_congr_left fun s _ => hslot s
  have hkeys : (m.map g).entries.map (·.2) = (m.entries.map (·.2)).map g := by
    rw [entries_map, List.map_map, List.map_map]
    rfl
  have hids : (m.map g).entries.map (·.1.index - 1) = m.entries.map (·.1.index - 1) := by
    rw [entries_map, List.map_map]
    rfl
  simp only [drain, hkeys, hids, hslots]
  rfl

variable {g m}

theorem Sound.map (h : m.Sound) : (m.map g).Sound where
  vacant_nodup := h.vacant_nodup
  mem_vacant i := by
    rw [show (m.map g).vacant = m.vacant from rfl, h.mem_vacant i]
    simp [SlotTable.map, Slot.map]
  size_eq := by
    rw [entries_map, List.length_map]
    exact h.size_eq

end SlotTable

/-! ## Veiled registries -/

/-- The key without its hash. -/
def Key.veil (k : Key) : Key := ⟨k.handle, 0⟩

def Filing.veil (x : Filing) : Filing := ⟨0, x.id⟩

def Registry.veil (r : Registry) : Registry :=
  ⟨r.slots.map Key.veil, ⟨r.index.filed.map Filing.veil⟩, r.monitor⟩

@[simp] theorem Key.handle_veil (k : Key) : k.veil.handle = k.handle := rfl

@[simp] theorem Key.bind_handle_veil (k? : Option Key) :
    (k?.map veil).bind handle = k?.bind handle := by
  cases k? <;> rfl

/-- Keys that fit can be told apart by their handles alone. -/
theorem Key.Fits.veil_inj {f : ObjectId → HashOutcome} {k k' : Key} (hk : k.Fits f)
    (hk' : k'.Fits f) (h : k.veil = k'.veil) : k = k' :=
  hk.ext hk' (Key.mk.inj h).1

namespace Registry

/-- The stored hashes are those that `f` gives the objects. -/
def Fits (f : ObjectId → HashOutcome) (r : Registry) : Prop :=
  ∀ id k, r.get? id = some k → k.Fits f

variable {f : ObjectId → HashOutcome} {r : Registry}

@[simp] theorem size_veil : r.veil.size = r.size := rfl

@[simp] theorem slotNumbers_veil : r.veil.slotNumbers = r.slotNumbers :=
  SlotTable.numbers_map Key.veil r.slots

theorem get?_veil (id : ListenerId) : r.veil.get? id = (r.get? id).map Key.veil :=
  SlotTable.get?_map Key.veil r.slots id

theorem entryAt?_veil (i : Nat) :
    r.veil.entryAt? i = (r.entryAt? i).map fun e => (e.1, e.2.veil) :=
  SlotTable.entryAt?_map Key.veil r.slots i

theorem entries_veil : r.veil.entries = r.entries.map fun e => (e.1, e.2.veil) :=
  SlotTable.entries_map Key.veil r.slots

theorem Fits.of_mem (h : r.Fits f) {e : ListenerId × Key} (he : e ∈ r.entries) : e.2.Fits f :=
  h e.1 e.2 (SlotTable.mem_entries.1 he)

/-- **A sound registry is sound under the veil**: its entries are still distinct. -/
theorem Sound.veil (h : r.Sound) (hr : r.Fits f) : r.veil.Sound where
  slots := h.slots.map
  indexed := by
    have hperm := h.indexed.map Filing.veil
    rw [List.map_map] at hperm
    rw [entries_veil, List.map_map]
    exact hperm
  distinct := by
    have hkeys : r.veil.entries.map (·.2) = (r.entries.map (·.2)).map Key.veil := by
      rw [entries_veil, List.map_map, List.map_map]
      rfl
    rw [hkeys]
    refine List.Nodup.map_on ?_ h.distinct
    rintro _ hk _ hk' heq
    obtain ⟨e, he, rfl⟩ := List.mem_map.1 hk
    obtain ⟨e', he', rfl⟩ := List.mem_map.1 hk'
    exact (hr.of_mem he).veil_inj (hr.of_mem he') heq
  idle := h.idle

/-- Looking for a key finds the same entry under the veil. -/
theorem idOf?_veil (h : r.Sound) (hr : r.Fits f) {k : Key} (hk : k.Fits f) :
    Roster.idOf? r.veil.slots k.veil = Roster.idOf? r.slots k := by
  refine Option.ext fun id => ?_
  rw [Roster.idOf?_eq_some_iff (h.veil hr).distinct, Roster.idOf?_eq_some_iff h.distinct]
  show (id, k.veil) ∈ r.veil.entries ↔ (id, k) ∈ r.entries
  rw [entries_veil, List.mem_map]
  constructor
  · rintro ⟨e, he, heq⟩
    obtain ⟨rfl, hkey⟩ := Prod.mk.inj heq
    rwa [← (hr.of_mem he).veil_inj hk hkey]
  · intro he
    exact ⟨_, he, rfl⟩

/-- Filing an id in a registry in order needs no rebuilding. -/
theorem Coherent.filed_insert (h : r.Coherent) (hash : UInt64) (id : ListenerId) :
    r.index.insert r.hashOf hash id = ⟨⟨hash, id⟩ :: r.index.filed⟩ := by
  simp [HashIndex.insert, rebuild_hashOf h]

/-! ### Operations -/

theorem register_veil (h : r.Sound) (hr : r.Fits f) {k : Key} (hk : k.Fits f) :
    ∃ id? r', r.register k = .ok (id?, r') ∧ r.veil.register k.veil = .ok (id?, r'.veil) := by
  cases hid : Roster.idOf? r.slots k with
  | some id =>
    have hveiled : Roster.idOf? r.veil.slots k.veil = some id := by rw [idOf?_veil h hr hk, hid]
    exact ⟨none, r, register_of_present h hid, register_of_present (h.veil hr) hveiled⟩
  | none =>
    refine ⟨_, _, register_of_absent h hid, ?_⟩
    rw [register_of_absent (h.veil hr) (by rw [idOf?_veil h hr hk, hid]),
      (h.veil hr).filed_insert, h.filed_insert]
    simp only [veil, SlotTable.insert_map]
    rfl

theorem locate_veil (h : r.Sound) (hr : r.Fits f) {hash : UInt64} {probe : Handle}
    (hk : Key.Fits f ⟨probe, hash⟩) :
    ∃ id?, r.locate hash probe = .ok (id?, r) ∧ r.veil.locate 0 probe = .ok (id?, r.veil) := by
  refine ⟨_, locate_eq h hash probe, ?_⟩
  rw [locate_eq (h.veil hr), ← idOf?_veil h hr hk]
  rfl

theorem unlink_veil (h : r.Sound) (hr : r.Fits f) (id : ListenerId) :
    ∃ found r', r.unlink id = .ok (found, r') ∧
      r.veil.unlink id = .ok (found.map Key.veil, r'.veil) := by
  cases hremove : r.slots.remove id with
  | none =>
    have hget : r.get? id = none := SlotTable.remove_eq_none_iff.1 hremove
    refine ⟨none, r, unlink_of_stale h.idle hget, unlink_of_stale h.idle ?_⟩
    rw [get?_veil, hget]
    rfl
  | some x =>
    obtain ⟨k, slots⟩ := x
    have hveiled : r.veil.slots.remove id = some (k.veil, slots.map Key.veil) := by
      show (r.slots.map Key.veil).remove id = _
      rw [SlotTable.remove_map, hremove]
      rfl
    have hids : (r.index.filed.map Filing.id).Nodup := by
      have hperm := h.indexed.map Filing.id
      rw [List.map_map] at hperm
      exact hperm.nodup_iff.2 r.slots.nodup_ids
    -- an id is filed once, so that the hash is not needed to find its filing
    have herase : (r.index.filed.erase ⟨k.hash, id⟩).map Filing.veil =
        (r.index.filed.map Filing.veil).erase ⟨0, id⟩ := by
      refine map_erase_of_inj fun x hx hid => ?_
      have hk : (⟨k.hash, id⟩ : Filing) ∈ r.index.filed := by
        have hentry : (id, k) ∈ r.entries := by
          obtain ⟨a, hget, ha⟩ := Option.map_eq_some_iff.1 hremove
          obtain ⟨rfl, -⟩ := Prod.mk.inj ha
          exact SlotTable.mem_entries.2 hget
        exact h.indexed.mem_iff.2 (List.mem_map.2 ⟨_, hentry, rfl⟩)
      exact List.inj_on_of_nodup_map hids hx hk (Filing.mk.inj hid).2
    refine ⟨some k, _, unlink_of_remove h hremove, ?_⟩
    rw [unlink_of_remove (h.veil hr) hveiled]
    simp only [veil, herase]
    rfl

theorem drain_veil (h : r.Sound) (hr : r.Fits f) :
    ∃ keys r', r.drain = .ok (keys, r') ∧ r.veil.drain = .ok (keys.map Key.veil, r'.veil) := by
  refine ⟨_, _, drain_of_sound h, ?_⟩
  rw [drain_of_sound (h.veil hr)]
  show Except.ok ((r.slots.map Key.veil).drain.1, _) = _
  simp only [veil, SlotTable.drain_map]
  rfl

theorem prune_veil (h : r.Sound) (hr : r.Fits f) (ids : List ListenerId) :
    ∃ removed r', r.prune ids = .ok (removed, r') ∧
      r.veil.prune ids = .ok (removed.map (fun e => (e.1, e.2.veil)), r'.veil) := by
  induction ids generalizing r with
  | nil => exact ⟨[], r, rfl, rfl⟩
  | cons id ids ih =>
    obtain ⟨found, r₁, hunlink, hveiled⟩ := unlink_veil h hr id
    obtain ⟨r₁', hunlink', hslots, h₁⟩ := unlink_eq h id
    obtain ⟨-, rfl⟩ := Prod.mk.inj (Except.ok.inj (hunlink.symm.trans hunlink'))
    have hr₁ : r₁.Fits f := by
      intro id' k hk
      unfold get? at hk
      rw [hslots, Roster.get?_take] at hk
      split at hk
      · cases hk
      · exact hr id' k hk
    obtain ⟨removed, r₂, hprune, hveiled'⟩ := ih h₁ hr₁
    refine ⟨_, r₂, by simp only [prune, hunlink, bind, Except.bind, hprune]; rfl, ?_⟩
    simp only [prune, hveiled, bind, Except.bind, hveiled']
    cases found <;> rfl

end Registry

end ListenerRegistry
