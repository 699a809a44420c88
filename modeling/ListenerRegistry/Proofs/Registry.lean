import ListenerRegistry.Proofs.Roster

/-!
# Registries agree with their rosters

A registry is sound when no section is open, the index files every entry once,
under its stored hash, and nothing else, and no key is stored twice. Every
operation on a sound registry succeeds, does to the slots what the roster
operation of the same kind does, answers alike, and leaves a sound registry.
-/

namespace ListenerRegistry

namespace Registry

/-- What the index holds for an entry. -/
def filing (e : ListenerId × Key) : Filing := ⟨e.2.hash, e.1⟩

/-- Index and storage are in one-to-one agreement. -/
structure Coherent (r : Registry) : Prop where
  slots : r.slots.Sound
  indexed : r.index.filed.Perm (r.entries.map filing)
  distinct : (r.entries.map (·.2)).Nodup

/-- No section is open, and index and storage agree. -/
structure Sound (r : Registry) : Prop extends r.Coherent where
  idle : r.monitor = .idle

theorem sound_empty : empty.Sound where
  slots := SlotTable.sound_empty
  indexed := List.Perm.refl []
  distinct := List.nodup_nil
  idle := rfl

/-- The monitor has no part in the agreement. -/
theorem Coherent.withMonitor {r : Registry} (h : r.Coherent) (m : Monitor) :
    Coherent { r with monitor := m } :=
  ⟨h.slots, h.indexed, h.distinct⟩

theorem Coherent.sound {r : Registry} (h : r.Coherent) :
    Sound ⟨r.slots, r.index, .idle⟩ :=
  ⟨h.withMonitor _, rfl⟩

/-! ## Looking up -/

theorem hashOf_of_mem {r : Registry} {e : ListenerId × Key} (h : e ∈ r.entries) :
    r.hashOf e.1 = e.2.hash := by
  have hget : r.get? e.1 = some e.2 := SlotTable.mem_entries.1 h
  simp [hashOf, hget]

theorem holds_iff {r : Registry} {probe : Handle} {id : ListenerId} :
    r.holds probe id = true ↔ ∃ k, (id, k) ∈ r.entries ∧ k.handle = probe := by
  simp only [holds, entries, SlotTable.mem_entries]
  cases hget : r.slots.get? id <;> simp [get?, hget]

/-- **Lookups through the index find what going through the entries finds.** -/
theorem lookup_eq {r : Registry} (h : r.Coherent) (hash : UInt64) (probe : Handle) :
    r.lookup hash probe = Roster.idOf? r.slots ⟨probe, hash⟩ := by
  have hsound : ∀ id, r.lookup hash probe = some id → (id, ⟨probe, hash⟩) ∈ r.entries := by
    intro id hid
    obtain ⟨f, hfind, rfl⟩ := Option.map_eq_some_iff.1 hid
    obtain ⟨hhash, hholds⟩ : f.hash = hash ∧ r.holds probe f.id = true := by
      simpa using List.find?_some hfind
    obtain ⟨⟨id, k⟩, he, rfl⟩ :=
      List.mem_map.1 (h.indexed.mem_iff.1 (List.mem_of_find?_eq_some hfind))
    obtain ⟨k', he', rfl⟩ := holds_iff.1 hholds
    -- one id holds one key, so that the filed hash is the key's own
    have hk : k' = k := by
      have h₁ := SlotTable.mem_entries.1 he
      have h₂ := SlotTable.mem_entries.1 he'
      exact Option.some.inj (h₂.symm.trans h₁)
    subst hk
    obtain rfl : k'.hash = hash := hhash
    exact he
  cases hroster : Roster.idOf? r.slots ⟨probe, hash⟩ with
  | none =>
    cases hlookup : r.lookup hash probe with
    | none => rfl
    | some id =>
      exact absurd (List.mem_map.2 ⟨_, hsound id hlookup, rfl⟩) (Roster.idOf?_eq_none_iff.1 hroster)
  | some id =>
    have he : (id, ⟨probe, hash⟩) ∈ r.entries := Roster.mem_entries_of_idOf? hroster
    cases hlookup : r.lookup hash probe with
    | none =>
      have hfiled := h.indexed.mem_iff.2 (List.mem_map.2 ⟨_, he, rfl⟩)
      have hnone := List.find?_eq_none.1 (Option.map_eq_none_iff.1 hlookup) _ hfiled
      have hholds : r.holds probe id = true := holds_iff.2 ⟨_, he, rfl⟩
      simp [filing, hholds] at hnone
    | some id' => rw [Roster.id_unique h.distinct (hsound id' hlookup) he]

/-- A rebuilt index is the index: every id is filed under its stored hash. -/
theorem rebuild_hashOf {r : Registry} (h : r.Coherent) : r.index.rebuild r.hashOf = r.index := by
  have hsame : ∀ f ∈ r.index.filed, (⟨r.hashOf f.id, f.id⟩ : Filing) = f := by
    intro f hf
    obtain ⟨e, he, rfl⟩ := List.mem_map.1 (h.indexed.mem_iff.1 hf)
    simp [filing, hashOf_of_mem he]
  rw [HashIndex.rebuild, List.map_congr_left hsame, List.map_id']

/-! ## Sections -/

/-- A section that is opened on an idle monitor is closed again. -/
theorem guarded_eq {α : Type} {r : Registry} {name : String} {a : α} {slots : Roster}
    {index : HashIndex} {body : Registry → Except Fault (α × Registry)} (h : r.monitor = .idle)
    (hbody : body ⟨r.slots, r.index, ⟨some name⟩⟩ = .ok (a, ⟨slots, index, ⟨some name⟩⟩)) :
    r.guarded name body = .ok (a, ⟨slots, index, .idle⟩) := by
  simp only [guarded, h, Monitor.enter_idle, bind, Except.bind, hbody, Monitor.leave_active]
  rfl

/-! ## Operations -/

/-- Storing a key: the registry has one more entry, and the index files it. -/
theorem Coherent.insert {r : Registry} (h : r.Coherent) {k : Key}
    (habsent : Roster.idOf? r.slots k = none) :
    Coherent { r with
      slots := (r.slots.insert k).2
      index := r.index.insert r.hashOf k.hash (r.slots.insert k).1 } := by
  obtain ⟨before, after, he, he'⟩ := SlotTable.entries_insert h.slots k
  refine ⟨h.slots.insert k, ?_, ?_⟩
  · have hindex : (r.index.insert r.hashOf k.hash (r.slots.insert k).1).filed =
        ⟨k.hash, (r.slots.insert k).1⟩ :: r.index.filed := by
      simp [HashIndex.insert, rebuild_hashOf h]
    have hperm : r.index.filed.Perm ((before ++ after).map filing) := by
      have := h.indexed
      rwa [entries, he] at this
    simp only [entries, hindex, he', List.map_append, List.map_cons] at hperm ⊢
    exact (hperm.cons _).trans List.perm_middle.symm
  · have hnodup := h.distinct
    have hk := Roster.idOf?_eq_none_iff.1 habsent
    rw [entries, he, List.map_append] at hnodup
    rw [he, List.map_append] at hk
    simp only [entries, he', List.map_append, List.map_cons]
    exact List.nodup_middle.2 (List.nodup_cons.2 ⟨hk, hnodup⟩)

theorem register_of_present {r : Registry} (h : r.Sound) {k : Key} {id : ListenerId}
    (hid : Roster.idOf? r.slots k = some id) : r.register k = .ok (none, r) := by
  have hc := h.toCoherent.withMonitor ⟨some "insert"⟩
  obtain ⟨slots, index, monitor⟩ := r
  obtain rfl : monitor = .idle := h.idle
  exact guarded_eq rfl (by simp [lookup_eq hc, hid])

theorem register_of_absent {r : Registry} (h : r.Sound) {k : Key}
    (hid : Roster.idOf? r.slots k = none) :
    r.register k = .ok (some (r.slots.insert k).1, { r with
      slots := (r.slots.insert k).2
      index := r.index.insert r.hashOf k.hash (r.slots.insert k).1 }) := by
  have hc := h.toCoherent.withMonitor ⟨some "insert"⟩
  obtain ⟨slots, index, monitor⟩ := r
  obtain rfl : monitor = .idle := h.idle
  refine guarded_eq rfl ?_
  simp only [lookup_eq hc, hid]
  rfl

theorem register_eq {r : Registry} (h : r.Sound) (k : Key) :
    ∃ r', r.register k = .ok ((Roster.add r.slots k).1, r') ∧
      r'.slots = (Roster.add r.slots k).2 ∧ r'.Sound := by
  cases hid : Roster.idOf? r.slots k with
  | some id =>
    rw [Roster.add_of_present hid]
    exact ⟨r, register_of_present h hid, rfl, h⟩
  | none =>
    rw [Roster.add_of_absent hid]
    exact ⟨_, register_of_absent h hid, rfl, h.toCoherent.insert hid, h.idle⟩

theorem locate_eq {r : Registry} (h : r.Sound) (hash : UInt64) (probe : Handle) :
    r.locate hash probe = .ok (Roster.idOf? r.slots ⟨probe, hash⟩, r) := by
  have hc := h.toCoherent.withMonitor ⟨some "find"⟩
  rw [locate, guarded_eq h.idle rfl, lookup_eq hc, ← h.idle]

theorem Coherent.remove {r : Registry} (h : r.Coherent) {id : ListenerId} {k : Key}
    {slots : Roster} (hr : r.slots.remove id = some (k, slots)) :
    r.index.erase? k.hash id = some ⟨r.index.filed.erase ⟨k.hash, id⟩⟩ ∧
      Coherent { r with slots, index := ⟨r.index.filed.erase ⟨k.hash, id⟩⟩ } := by
  obtain ⟨before, after, he, he'⟩ := SlotTable.entries_of_remove hr
  have hperm : r.index.filed.Perm (⟨k.hash, id⟩ :: (before ++ after).map filing) := by
    have := h.indexed
    rw [entries, he, List.map_append, List.map_cons] at this
    simpa [filing] using this.trans List.perm_middle
  -- the entry is indexed, whatever happened since it was stored
  have hmem : ⟨k.hash, id⟩ ∈ r.index.filed := hperm.mem_iff.2 List.mem_cons_self
  refine ⟨by simp [HashIndex.erase?, hmem], h.slots.remove hr, ?_, ?_⟩
  · have := hperm.erase ⟨k.hash, id⟩
    rw [List.erase_cons_head] at this
    simpa [entries, he'] using this
  · have hnodup := h.distinct
    rw [entries, he, List.map_append, List.map_cons, List.nodup_middle, List.nodup_cons] at hnodup
    simpa [entries, he'] using hnodup.2

/-- Unlinking an id that does not resolve changes nothing. -/
theorem unlink_of_stale {r : Registry} {id : ListenerId} (h : r.monitor = .idle)
    (hget : r.get? id = none) : r.unlink id = .ok (none, r) := by
  obtain ⟨slots, index, monitor⟩ := r
  obtain rfl : monitor = .idle := h
  have hremove : slots.remove id = none := SlotTable.remove_eq_none_iff.2 hget
  exact guarded_eq rfl (by simp [hremove])

/-- Unlinking an entry takes its filing out of the index. -/
theorem unlink_of_remove {r : Registry} (h : r.Sound) {id : ListenerId} {k : Key} {slots : Roster}
    (hr : r.slots.remove id = some (k, slots)) :
    r.unlink id =
      .ok (some k, { r with slots, index := ⟨r.index.filed.erase ⟨k.hash, id⟩⟩ }) := by
  have hindex := (h.toCoherent.remove hr).1
  obtain ⟨slots₀, index, monitor⟩ := r
  obtain rfl : monitor = .idle := h.idle
  refine guarded_eq rfl ?_
  simp only [hr]
  simp only [] at hindex
  simp [hindex]

theorem unlink_eq {r : Registry} (h : r.Sound) (id : ListenerId) :
    ∃ r', r.unlink id = .ok ((Roster.take r.slots id).1, r') ∧
      r'.slots = (Roster.take r.slots id).2 ∧ r'.Sound := by
  cases hr : r.slots.remove id with
  | none =>
    rw [Roster.take_of_stale hr]
    exact ⟨r, unlink_of_stale h.idle (SlotTable.remove_eq_none_iff.1 hr), rfl, h⟩
  | some found =>
    obtain ⟨k, slots⟩ := found
    rw [Roster.take_of_remove hr]
    exact ⟨_, unlink_of_remove h hr, rfl, (h.toCoherent.remove hr).2, h.idle⟩

theorem prune_eq {r : Registry} (h : r.Sound) (ids : List ListenerId) :
    ∃ r', r.prune ids = .ok ((Roster.strike r.slots ids).1, r') ∧
      r'.slots = (Roster.strike r.slots ids).2 ∧ r'.Sound := by
  induction ids generalizing r with
  | nil => exact ⟨r, rfl, rfl, h⟩
  | cons id ids ih =>
    obtain ⟨r₁, hunlink, hslots₁, h₁⟩ := unlink_eq h id
    obtain ⟨r₂, hprune, hslots₂, h₂⟩ := ih h₁
    rw [hslots₁] at hprune hslots₂
    refine ⟨r₂, ?_, hslots₂, h₂⟩
    simp only [prune, hunlink, bind, Except.bind, hprune]
    rfl

theorem drain_of_sound {r : Registry} (h : r.Sound) :
    r.drain = .ok (r.slots.drain.1, { r with slots := r.slots.drain.2, index := .empty }) := by
  obtain ⟨slots, index, monitor⟩ := r
  obtain rfl : monitor = .idle := h.idle
  exact guarded_eq rfl rfl

theorem drain_eq {r : Registry} (h : r.Sound) :
    ∃ r', r.drain = .ok (r.slots.drain.1, r') ∧ r'.slots = r.slots.drain.2 ∧ r'.Sound := by
  have hnone := SlotTable.entries_drain r.slots
  refine ⟨_, drain_of_sound h, rfl, ⟨h.slots.drain, ?_, ?_⟩, h.idle⟩
  · simp [entries, hnone, HashIndex.empty]
  · simp [entries, hnone]

end Registry

end ListenerRegistry
