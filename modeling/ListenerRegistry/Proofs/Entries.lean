import ListenerRegistry.Proofs.Action

/-!
# What actions do to the entries

Storing a key adds one entry, under an id that resolved to nothing before. Any
other action vacates the slots of the entries that it unlinks and leaves all
other slots as they were. So an id keeps resolving to what it resolved to, until
an action unlinks it.
-/

namespace ListenerRegistry

/-! ## Slots and ids -/

namespace SlotTable

variable {α : Type} {m : SlotTable α}

/-- The present id of a slot resolves to what the slot holds. -/
theorem get?_of_slot {j : Nat} {s : Slot α} (h : m.slots[j]? = some s) :
    m.get? ⟨j + 1, s.version⟩ = s.content := by
  simp [get?, slotAt?, h]

/-- Only the present id of a slot resolves. -/
theorem get?_of_version_ne {j : Nat} {s : Slot α} {v : UInt32} (h : m.slots[j]? = some s)
    (hv : s.version ≠ v) : m.get? ⟨j + 1, v⟩ = none := by
  simp [get?, slotAt?, h, hv]

theorem get?_of_no_slot {j : Nat} {v : UInt32} (h : m.slots[j]? = none) :
    m.get? ⟨j + 1, v⟩ = none := by
  simp [get?, slotAt?, h]

theorem get?_zero (v : UInt32) : m.get? ⟨0, v⟩ = none := by
  simp [get?, slotAt?]

@[simp] theorem get?_empty (id : SlotId) : (empty : SlotTable α).get? id = none := by
  simp [get?, slotAt?, empty]

/-- A slot holds the entry that its present id resolves to. -/
theorem entryAt?_eq_some_iff {i : Nat} {id : SlotId} {a : α} :
    m.entryAt? i = some (id, a) ↔ id.index = i ∧ m.get? id = some a := by
  obtain ⟨index, version⟩ := id
  unfold entryAt? get?
  constructor
  · intro h
    obtain ⟨s, hs, h⟩ := Option.bind_eq_some_iff.1 h
    obtain ⟨b, hb, h⟩ := Option.map_eq_some_iff.1 h
    cases h
    exact ⟨rfl, by simp [hs, hb]⟩
  · rintro ⟨rfl, h⟩
    cases hs : m.slotAt? index with
    | none => simp [hs] at h
    | some s =>
      obtain ⟨hv, hc⟩ : s.version = version ∧ s.content = some a := by simpa [hs] using h
      simp [hv, hc]

/-- The id under which a value is stored resolved to nothing before. -/
theorem get?_insert_fresh (h : m.Sound) (a : α) : m.get? (m.insert a).1 = none := by
  obtain ⟨before, after, he, he'⟩ := entries_insert h a
  have hnodup := (m.insert a).2.nodup_ids
  rw [he', List.map_append, List.map_cons, List.nodup_middle, List.nodup_cons] at hnodup
  refine Option.eq_none_iff_forall_not_mem.2 fun b hb => hnodup.1 ?_
  rw [← List.map_append, ← he]
  exact List.mem_map.2 ⟨_, mem_entries.2 hb, rfl⟩

/-- Storing a value changes what its own id resolves to, and nothing else. -/
theorem get?_insert (h : m.Sound) (a : α) (id : SlotId) :
    (m.insert a).2.get? id = if id = (m.insert a).1 then some a else m.get? id := by
  obtain ⟨before, after, he, he'⟩ := entries_insert h a
  have hmem : ∀ b, (m.insert a).2.get? id = some b ↔
      (id = (m.insert a).1 ∧ b = a) ∨ m.get? id = some b := by
    intro b
    rw [← mem_entries, ← mem_entries, he, he', List.mem_append, List.mem_append, List.mem_cons,
      Prod.mk.injEq]
    tauto
  apply Option.ext
  intro b
  rw [hmem]
  split
  · rename_i hid
    subst hid
    simp [get?_insert_fresh h, eq_comm]
  · rename_i hid
    simp [hid]

end SlotTable

/-! ## Unlinking -/

/-- Whether the action takes the entry `id` out of the roster. -/
def Action.unlinks (m : Roster) (a : Action) (id : ListenerId) : Bool :=
  (m.get? id).isSome &&
    match a with
    | .withdraw k => Roster.idOf? m k == some id
    | .removeId i => i == id
    | .strike ids => ids.contains id
    | .clear | .discard => true
    | .insert _ | .find _ | .get _ | .size | .entries => false

namespace Roster

variable {m : Roster} {a : Action} {id : ListenerId} {k : Key}

theorem get?_of_unlinks (h : a.unlinks m id = true) : ∃ k, m.get? id = some k := by
  unfold Action.unlinks at h
  rw [Bool.and_eq_true] at h
  exact Option.isSome_iff_exists.1 h.1

/-- Taking out an entry vacates its slot. -/
theorem getElem?_take (m : Roster) (id : ListenerId) (j : Nat) :
    (take m id).2.slots[j]? =
      m.slots[j]?.map fun s => if s.content.isSome ∧ id = ⟨j + 1, s.version⟩ then s.vacate else s := by
  cases hr : m.remove id with
  | none =>
    rw [take_of_stale hr]
    have hget := SlotTable.remove_eq_none_iff.1 hr
    cases hs : m.slots[j]? with
    | none => rfl
    | some s =>
      have hkeep : ¬(s.content.isSome ∧ id = ⟨j + 1, s.version⟩) := by
        rintro ⟨hc, rfl⟩
        rw [SlotTable.get?_of_slot hs] at hget
        simp [hget] at hc
      rw [Option.map_some, if_neg hkeep]
  | some found =>
    obtain ⟨k, m'⟩ := found
    rw [take_of_remove hr]
    obtain ⟨k', hget, he⟩ := Option.map_eq_some_iff.1 hr
    obtain ⟨rfl, rfl⟩ := by simpa using he
    obtain ⟨i, hi, hslot⟩ := SlotTable.getElem?_of_get? hget
    obtain ⟨index, version⟩ := id
    obtain rfl : index = i + 1 := hi
    simp only [Nat.add_sub_cancel, List.getElem?_modify]
    by_cases hij : i = j
    · subst hij
      simp [hslot]
    · cases hs : m.slots[j]? <;> simp [hij]

/-- Taking out several entries vacates their slots, whatever the order. -/
theorem getElem?_strike (ids : List ListenerId) (m : Roster) (j : Nat) :
    (strike m ids).2.slots[j]? = m.slots[j]?.map fun s =>
      if s.content.isSome ∧ (⟨j + 1, s.version⟩ : ListenerId) ∈ ids then s.vacate else s := by
  induction ids generalizing m with
  | nil => simp [strike]
  | cons id ids ih =>
    show (strike (take m id).2 ids).2.slots[j]? = _
    rw [ih, getElem?_take, Option.map_map]
    congr 1
    funext s
    by_cases h : s.content.isSome ∧ id = ⟨j + 1, s.version⟩
    · -- a vacated slot is left alone from then on
      simp [h, Slot.vacate]
    · rw [Function.comp_apply, if_neg h]
      rcases Bool.eq_false_or_eq_true s.content.isSome with hc | hc
      · have hid : (⟨j + 1, s.version⟩ : ListenerId) ≠ id := fun e => h ⟨hc, e.symm⟩
        simp [hid]
      · simp [hc]

theorem getElem?_drain (m : Roster) (j : Nat) :
    m.drain.2.slots[j]? = m.slots[j]?.map fun s => if s.content.isSome then s.vacate else s := by
  unfold SlotTable.drain
  rw [List.getElem?_map]
  congr 1
  funext s
  cases hc : s.content <;> simp [Slot.drain, hc]

/-- Taking out the entry of a key is taking out an entry, if there is one. -/
theorem getElem?_withdraw (m : Roster) (k : Key) (j : Nat) :
    (withdraw m k).2.slots[j]? = m.slots[j]?.map fun s =>
      if s.content.isSome ∧ idOf? m k = some ⟨j + 1, s.version⟩ then s.vacate else s := by
  unfold withdraw
  cases hid : idOf? m k with
  | none => simp
  | some id => simp [getElem?_take]

/-- **An action that stores nothing vacates the slots of the entries that it
unlinks**, and leaves the others alone. -/
theorem getElem?_apply (hinsert : ∀ k, a ≠ .insert k) (hdiscard : a ≠ .discard) (j : Nat) :
    (apply m a).2.slots[j]? =
      m.slots[j]?.map fun s => if a.unlinks m ⟨j + 1, s.version⟩ then s.vacate else s := by
  have hcontent : ∀ s, m.slots[j]? = some s →
      (m.get? ⟨j + 1, s.version⟩).isSome = s.content.isSome := by
    intro s hs
    rw [SlotTable.get?_of_slot hs]
  cases a with
  | insert k => exact absurd rfl (hinsert k)
  | discard => exact absurd rfl hdiscard
  | withdraw k =>
    show (withdraw m k).2.slots[j]? = _
    rw [getElem?_withdraw]
    refine Option.map_congr fun s hs => ?_
    simp [Action.unlinks, hcontent s hs]
  | removeId id =>
    show (take m id).2.slots[j]? = _
    rw [getElem?_take]
    refine Option.map_congr fun s hs => ?_
    simp [Action.unlinks, hcontent s hs]
  | strike ids =>
    show (strike m ids).2.slots[j]? = _
    rw [getElem?_strike]
    refine Option.map_congr fun s hs => ?_
    simp [Action.unlinks, hcontent s hs]
  | clear =>
    show m.drain.2.slots[j]? = _
    rw [getElem?_drain]
    refine Option.map_congr fun s hs => ?_
    simp [Action.unlinks, hcontent s hs]
  | find | get | size | entries => simp [apply, Action.unlinks]

/-- **Ids resolve to what they did**, except for those that the action unlinks. -/
theorem get?_apply (hinsert : ∀ k, a ≠ .insert k) (id : ListenerId) :
    (apply m a).2.get? id = if a.unlinks m id then none else m.get? id := by
  by_cases hdiscard : a = .discard
  · subst hdiscard
    cases hget : m.get? id <;> simp [apply, Action.unlinks, hget]
  obtain ⟨index, version⟩ := id
  cases index with
  | zero => simp [SlotTable.get?_zero]
  | succ j =>
    have hslot := getElem?_apply (m := m) hinsert hdiscard j
    cases hs : m.slots[j]? with
    | none =>
      rw [hs, Option.map_none] at hslot
      simp [SlotTable.get?_of_no_slot hs, SlotTable.get?_of_no_slot hslot]
    | some s =>
      rw [hs, Option.map_some] at hslot
      by_cases hv : s.version = version
      · subst hv
        rw [SlotTable.get?_of_slot hs]
        split at hslot
        · rename_i hu
          have hstale : s.vacate.version ≠ s.version := by simp [Slot.vacate]
          rw [SlotTable.get?_of_version_ne hslot hstale, if_pos hu]
        · rename_i hu
          rw [SlotTable.get?_of_slot hslot, if_neg hu]
      · rw [SlotTable.get?_of_version_ne hs hv, ite_self]
        split at hslot
        · -- a vacated slot holds nothing, whatever its version
          cases hget : (apply m a).2.get? ⟨j + 1, version⟩ with
          | none => rfl
          | some k =>
            obtain ⟨i, hi, hk⟩ := SlotTable.getElem?_of_get? hget
            obtain rfl : j = i := Nat.succ.inj hi
            rw [hslot] at hk
            cases hk
        · exact SlotTable.get?_of_version_ne hslot hv

/-- Adding a key changes what the new id resolves to, if there is a new id. -/
theorem get?_add (h : m.Sound) (k : Key) (id : ListenerId) :
    (add m k).2.get? id = if (add m k).1 = some id then some k else m.get? id := by
  cases hid : idOf? m k with
  | some i => simp [add_of_present hid]
  | none =>
    rw [add_of_absent hid]
    rw [SlotTable.get?_insert h]
    simp [eq_comm]

/-- The id under which a key is added resolved to nothing before. -/
theorem get?_of_add (h : m.Sound) (ha : (add m k).1 = some id) : m.get? id = none := by
  cases hid : idOf? m k with
  | some i => simp [add_of_present hid] at ha
  | none =>
    rw [add_of_absent hid] at ha
    cases ha
    exact SlotTable.get?_insert_fresh h k

/-- No action puts another key under an id that resolves. -/
theorem get?_apply_of_some (h : m.Sound) (a : Action) (hget : m.get? id = some k) :
    (apply m a).2.get? id = if a.unlinks m id then none else some k := by
  by_cases hinsert : ∃ k', a = .insert k'
  · obtain ⟨k', rfl⟩ := hinsert
    show (add m k').2.get? id = _
    have hother : (add m k').1 ≠ some id := by
      intro hid
      rw [get?_of_add h hid] at hget
      cases hget
    rw [get?_add h, if_neg hother]
    simpa [Action.unlinks] using hget
  · rw [get?_apply (fun k' hk => hinsert ⟨k', hk⟩), hget]

/-- What is in a roster after an action was there before, or was just stored. -/
theorem get?_of_apply (h : m.Sound) (hget : (apply m a).2.get? id = some k) :
    m.get? id = some k ∨ a = .insert k := by
  by_cases hinsert : ∃ k', a = .insert k'
  · obtain ⟨k', rfl⟩ := hinsert
    rw [show (apply m (.insert k')).2 = (add m k').2 from rfl, get?_add h] at hget
    split at hget
    · cases hget
      exact Or.inr rfl
    · exact Or.inl hget
  · rw [get?_apply (fun k' hk => hinsert ⟨k', hk⟩)] at hget
    split at hget
    · cases hget
    · exact Or.inl hget

end Roster

end ListenerRegistry
