import ListenerRegistry.SlotTable
import Mathlib.Data.List.Nodup
import Mathlib.Data.List.Infix

/-!
# Slot tables are maps from ids

The entries of a slot table are exactly what its ids resolve to, and the list of
vacant slots is exact. Storing a value puts one entry into the list of entries,
removing an id takes one out, and draining empties it; all other entries stay
where they are.
-/

namespace ListenerRegistry

namespace SlotTable

variable {α : Type}

/-- The vacant slots are listed once each, and the size counts the others. -/
structure Sound (m : SlotTable α) : Prop where
  vacant_nodup : m.vacant.Nodup
  mem_vacant : ∀ i, i ∈ m.vacant ↔ ∃ s, m.slots[i]? = some s ∧ s.content = none
  size_eq : m.size = m.entries.length

/-! ## The occupied slots of a list -/

/-- What the slot with number `n` adds to the entries. -/
def entriesOf (n : Nat) (s : Slot α) : List (SlotId × α) :=
  (s.content.map fun a => (⟨n, s.version⟩, a)).toList

theorem occupied_cons (n : Nat) (s : Slot α) (slots : List (Slot α)) :
    occupied n (s :: slots) = entriesOf n s ++ occupied (n + 1) slots := by
  cases h : s.content <;> simp [occupied, entriesOf, h]

theorem occupied_append (xs ys : List (Slot α)) : ∀ n : Nat,
    occupied n (xs ++ ys) = occupied n xs ++ occupied (n + xs.length) ys := by
  induction xs with
  | nil => intro n; rfl
  | cons s xs ih =>
    intro n
    rw [List.cons_append, occupied_cons, occupied_cons, ih, List.append_assoc, List.length_cons,
      Nat.add_right_comm, Nat.add_assoc]

/-- The entries before, in and after the slot at position `i`. -/
theorem occupied_split {slots : List (Slot α)} {i : Nat} {s : Slot α} (h : slots[i]? = some s)
    (n : Nat) :
    occupied n slots = occupied n (slots.take i) ++ entriesOf (n + i) s ++
      occupied (n + i + 1) (slots.drop (i + 1)) := by
  obtain ⟨hi, hs⟩ := List.getElem?_eq_some_iff.1 h
  have hslots : slots = slots.take i ++ s :: slots.drop (i + 1) := by
    rw [← hs, List.cons_getElem_drop_succ, List.take_append_drop]
  conv_lhs => rw [hslots]
  rw [occupied_append, occupied_cons, List.length_take_of_le (Nat.le_of_lt hi), List.append_assoc]

/-- Changing one slot changes only what that slot adds. -/
theorem occupied_modify {slots : List (Slot α)} {i : Nat} {s : Slot α} (h : slots[i]? = some s)
    (f : Slot α → Slot α) (n : Nat) :
    occupied n (slots.modify i f) = occupied n (slots.take i) ++ entriesOf (n + i) (f s) ++
      occupied (n + i + 1) (slots.drop (i + 1)) := by
  obtain ⟨hi, hs⟩ := List.getElem?_eq_some_iff.1 h
  have hget : (slots.modify i f)[i]? = some (f s) := by simp [h]
  rw [occupied_split hget, List.take_modify, List.modify_eq_self (List.length_take_le i slots),
    List.drop_modify_of_lt _ _ _ _ (Nat.lt_succ_self i)]

theorem mem_occupied {id : SlotId} {a : α} {slots : List (Slot α)} : ∀ {n : Nat},
    (id, a) ∈ occupied n slots ↔
      ∃ j s, slots[j]? = some s ∧ s.content = some a ∧ id = ⟨n + j, s.version⟩ := by
  induction slots with
  | nil => intro n; simp [occupied]
  | cons s slots ih =>
    intro n
    rw [occupied_cons, List.mem_append, ih]
    constructor
    · rintro (h | ⟨j, t, ht, hc, rfl⟩)
      · obtain ⟨hc, rfl⟩ : s.content = some a ∧ ⟨n, s.version⟩ = id := by
          simpa [entriesOf] using h
        exact ⟨0, s, rfl, hc, rfl⟩
      · exact ⟨j + 1, t, by simpa using ht, hc, by simp [Nat.add_comm j, Nat.add_assoc]⟩
    · rintro ⟨j, t, ht, hc, rfl⟩
      cases j with
      | zero =>
        obtain rfl : s = t := by simpa using ht
        exact Or.inl (by simp [entriesOf, hc])
      | succ j =>
        exact Or.inr ⟨j, t, by simpa using ht, hc, by simp [Nat.add_comm j, Nat.add_assoc]⟩

theorem index_occupied (slots : List (Slot α)) : ∀ n : Nat,
    (occupied n slots).Pairwise (fun a b => a.1.index < b.1.index) ∧
      ∀ e ∈ occupied n slots, n ≤ e.1.index := by
  induction slots with
  | nil => intro n; simp [occupied]
  | cons s slots ih =>
    intro n
    obtain ⟨hpair, hle⟩ := ih (n + 1)
    rw [occupied_cons]
    cases hc : s.content with
    | none =>
      simp only [entriesOf, hc, Option.map_none, Option.toList_none, List.nil_append]
      exact ⟨hpair, fun e he => Nat.le_of_succ_le (hle e he)⟩
    | some a =>
      simp only [entriesOf, hc, Option.map_some, Option.toList_some, List.singleton_append,
        List.pairwise_cons, List.forall_mem_cons]
      exact ⟨⟨fun e he => hle e he, hpair⟩, Nat.le_refl n,
        fun e he => Nat.le_of_succ_le (hle e he)⟩

/-! ## Entries and ids -/

/-- **Entries are what ids resolve to.** -/
theorem mem_entries {m : SlotTable α} {id : SlotId} {a : α} :
    (id, a) ∈ m.entries ↔ m.get? id = some a := by
  obtain ⟨index, version⟩ := id
  rw [entries, mem_occupied]
  constructor
  · rintro ⟨j, s, hs, hc, he⟩
    obtain ⟨rfl, rfl⟩ := by simpa using he
    simp [get?, slotAt?, hs, hc]
  · intro h
    cases index with
    | zero => simp [get?, slotAt?] at h
    | succ j =>
      cases hs : m.slots[j]? with
      | none => simp [get?, slotAt?, hs] at h
      | some s =>
        obtain ⟨hv, hc⟩ := by simpa [get?, slotAt?, hs] using h
        exact ⟨j, s, hs, hc, by simp [hv, Nat.add_comm]⟩

/-- The ids of the entries are in the order of their slots. -/
theorem pairwise_entries (m : SlotTable α) :
    m.entries.Pairwise (fun a b => a.1.index < b.1.index) :=
  (index_occupied m.slots 1).1

theorem nodup_ids (m : SlotTable α) : (m.entries.map (·.1)).Nodup := by
  rw [List.Nodup, List.pairwise_map]
  refine m.pairwise_entries.imp fun hlt heq => ?_
  rw [heq] at hlt
  exact Nat.lt_irrefl _ hlt

/-! ## Storing -/

/-- Storing a value adds one entry, under the id that is answered. -/
theorem entries_insert {m : SlotTable α} (h : m.Sound) (a : α) :
    ∃ before after, m.entries = before ++ after ∧
      (m.insert a).2.entries = before ++ ((m.insert a).1, a) :: after := by
  obtain ⟨slots, vacant, size⟩ := m
  cases vacant with
  | nil =>
    refine ⟨occupied 1 slots, [], by simp [entries], ?_⟩
    simp [entries, insert, occupied_append, occupied, Nat.add_comm]
  | cons i vacant =>
    obtain ⟨s, hs, hc⟩ := (h.mem_vacant i).1 List.mem_cons_self
    refine ⟨occupied 1 (slots.take i), occupied (1 + i + 1) (slots.drop (i + 1)), ?_, ?_⟩
    · rw [entries, occupied_split hs]
      simp [entriesOf, hc]
    · simp only [entries, insert]
      rw [occupied_modify hs]
      have hs' : slots[i]? = some s := hs
      simp [entriesOf, Slot.fill, hs', Nat.add_comm]

theorem size_insert (m : SlotTable α) (a : α) : (m.insert a).2.size = m.size + 1 := by
  obtain ⟨slots, vacant, size⟩ := m
  cases vacant <;> rfl

theorem Sound.insert {m : SlotTable α} (h : m.Sound) (a : α) : (m.insert a).2.Sound := by
  have hsize : (m.insert a).2.size = (m.insert a).2.entries.length := by
    obtain ⟨before, after, he, he'⟩ := entries_insert h a
    rw [size_insert, h.size_eq, he, he']
    simp [Nat.add_assoc]
  obtain ⟨slots, vacant, size⟩ := m
  cases vacant with
  | nil =>
    -- the new slot comes last, and none before it is vacant
    refine ⟨List.nodup_nil, fun i => ?_, hsize⟩
    have hfull := h.mem_vacant i
    simp only [List.not_mem_nil, false_iff, not_exists, not_and] at hfull
    simp only [SlotTable.insert, List.not_mem_nil, false_iff, not_exists, not_and,
      List.getElem?_append]
    intro s hs
    split at hs
    · exact hfull s hs
    · have := List.mem_of_getElem? hs
      simp only [List.mem_singleton] at this
      simp [this]
  | cons i vacant =>
    obtain ⟨hi, hnodup⟩ := List.nodup_cons.1 h.vacant_nodup
    refine ⟨hnodup, fun j => ?_, hsize⟩
    have hmem := h.mem_vacant j
    simp only [List.mem_cons] at hmem
    simp only [SlotTable.insert, List.getElem?_modify]
    by_cases hij : i = j
    · subst hij
      simp [hi, Slot.fill]
    · have hji : ¬ j = i := fun e => hij e.symm
      simpa [hij, hji] using hmem

/-! ## Removing -/

theorem remove_eq_none_iff {m : SlotTable α} {id : SlotId} :
    m.remove id = none ↔ m.get? id = none := by
  simp [remove]

/-- What an id resolves to is in the slot that the id names. -/
theorem getElem?_of_get? {m : SlotTable α} {id : SlotId} {a : α} (h : m.get? id = some a) :
    ∃ i, id.index = i + 1 ∧ m.slots[i]? = some ⟨id.version, some a⟩ := by
  obtain ⟨j, s, hs, hc, rfl⟩ := mem_occupied.1 (mem_entries.2 h)
  exact ⟨j, Nat.add_comm 1 j, by rw [hs, ← hc]⟩

theorem entries_of_remove {m m' : SlotTable α} {id : SlotId} {a : α}
    (h : m.remove id = some (a, m')) :
    ∃ before after, m.entries = before ++ (id, a) :: after ∧ m'.entries = before ++ after := by
  obtain ⟨b, hget, he⟩ := Option.map_eq_some_iff.1 h
  obtain ⟨rfl, rfl⟩ := by simpa using he
  obtain ⟨i, hi, hs⟩ := getElem?_of_get? hget
  obtain ⟨index, version⟩ := id
  obtain rfl : index = i + 1 := hi
  refine ⟨occupied 1 (m.slots.take i), occupied (1 + i + 1) (m.slots.drop (i + 1)), ?_, ?_⟩
  · rw [entries, occupied_split hs]
    simp [entriesOf, Nat.add_comm]
  · simp only [entries, Nat.add_sub_cancel]
    rw [occupied_modify hs]
    simp [entriesOf, Slot.vacate]

theorem Sound.remove {m m' : SlotTable α} {id : SlotId} {a : α} (h : m.Sound)
    (hr : m.remove id = some (a, m')) : m'.Sound := by
  have hsize : m'.size = m'.entries.length := by
    obtain ⟨before, after, he, he'⟩ := entries_of_remove hr
    have hm : m'.size = m.size - 1 := by
      obtain ⟨b, -, he⟩ := Option.map_eq_some_iff.1 hr
      exact congrArg (·.2.size) he.symm
    rw [hm, h.size_eq, he, he']
    simp
  obtain ⟨b, hget, he⟩ := Option.map_eq_some_iff.1 hr
  obtain ⟨rfl, rfl⟩ := by simpa using he
  obtain ⟨i, hi, hs⟩ := getElem?_of_get? hget
  have hi' : id.index - 1 = i := by omega
  -- the slot was occupied, so that it is listed once
  have hocc : i ∉ m.vacant := by
    rw [h.mem_vacant i]
    rintro ⟨s, hs', hc⟩
    rw [hs] at hs'
    cases hs'
    cases hc
  simp only [hi'] at hsize ⊢
  refine ⟨List.nodup_cons.2 ⟨hocc, h.vacant_nodup⟩, fun j => ?_, hsize⟩
  rw [List.mem_cons, h.mem_vacant j, List.getElem?_modify]
  by_cases hij : i = j
  · subst hij
    simp [hs, Slot.vacate]
  · have hji : ¬ j = i := fun e => hij e.symm
    simp [hij, hji]

/-! ## Draining -/

theorem content_drain (s : Slot α) : s.drain.content = none := by
  cases h : s.content <;> simp [Slot.drain, Slot.vacate, h]

theorem entries_drain (m : SlotTable α) : m.drain.2.entries = [] := by
  refine List.eq_nil_iff_forall_not_mem.2 fun ⟨id, a⟩ h => ?_
  obtain ⟨j, s, hs, hc, -⟩ := mem_occupied.1 h
  simp only [drain, List.getElem?_map, Option.map_eq_some_iff] at hs
  obtain ⟨t, -, rfl⟩ := hs
  rw [content_drain] at hc
  cases hc

theorem Sound.drain {m : SlotTable α} (h : m.Sound) : m.drain.2.Sound := by
  refine ⟨?_, fun i => ?_, by rw [entries_drain]; rfl⟩
  · -- slots that were vacant before hold no entries
    refine List.nodup_append'.2 ⟨?_, h.vacant_nodup, ?_⟩
    · rw [List.nodup_reverse, List.Nodup, List.pairwise_map]
      refine m.pairwise_entries.imp_of_mem fun {a b} ha _ hlt heq => ?_
      have := (index_occupied m.slots 1).2 a ha
      omega
    · intro i hi hv
      simp only [List.mem_reverse, List.mem_map] at hi
      obtain ⟨⟨id, a⟩, he, rfl⟩ := hi
      obtain ⟨j, s, hs, hc, rfl⟩ := mem_occupied.1 he
      obtain ⟨t, ht, hn⟩ := (h.mem_vacant _).1 hv
      simp only [Nat.add_sub_cancel_left] at ht
      rw [hs] at ht
      cases ht
      rw [hc] at hn
      cases hn
  · simp only [SlotTable.drain, List.mem_append, List.mem_reverse, List.mem_map,
      List.getElem?_map, Option.map_eq_some_iff]
    constructor
    · rintro (⟨⟨id, a⟩, he, rfl⟩ | hv)
      · obtain ⟨j, s, hs, -, rfl⟩ := mem_occupied.1 he
        exact ⟨s.drain, ⟨s, by simpa using hs, rfl⟩, content_drain s⟩
      · obtain ⟨s, hs, -⟩ := (h.mem_vacant i).1 hv
        exact ⟨s.drain, ⟨s, hs, rfl⟩, content_drain s⟩
    · rintro ⟨-, ⟨s, hs, rfl⟩, -⟩
      cases hc : s.content with
      | none => exact Or.inr ((h.mem_vacant i).2 ⟨s, hs, hc⟩)
      | some a =>
        exact Or.inl ⟨(⟨1 + i, s.version⟩, a), mem_occupied.2 ⟨i, s, hs, hc, rfl⟩,
          Nat.add_sub_cancel_left 1 i⟩

theorem sound_empty : (empty : SlotTable α).Sound :=
  ⟨List.nodup_nil, fun i => by simp [empty], rfl⟩

end SlotTable

end ListenerRegistry
