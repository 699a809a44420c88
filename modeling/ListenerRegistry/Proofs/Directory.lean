import ListenerRegistry.Proofs.Coherence
import ListenerRegistry.Proofs.History
import Mathlib.Logic.Function.Basic

/-!
# Rosters as maps

To its users a registry is a finite map from ids to objects, its directory. Where
every stored hash fits, no object occurs in it twice, looking for a key comes to
looking for its object, and actions come to what they are on maps.
-/

namespace ListenerRegistry

/-- The object of the entry `id`; null if there is no such entry. -/
def Roster.directory (m : Roster) (id : ListenerId) : Handle := (m.get? id).bind Key.handle

/-- What the ids of every registry stand for. -/
def World.directories (w : World) (s : Nat) : ListenerId → Handle := Roster.directory (w.rosters s)

/-- The roster is in order, its keys have the hashes that `f` gives their objects, and
no key is on null. -/
structure Roster.Truthful (f : ObjectId → HashOutcome) (m : Roster) : Prop where
  sound : m.Sound
  distinct : (m.entries.map (·.2)).Nodup
  fits : ∀ id k, m.get? id = some k → k.Fits f
  peopled : ∀ id k, m.get? id = some k → k.handle ≠ none

theorem World.Keyed.truthful {f : ObjectId → HashOutcome} {w : World} (h : w.Keyed f)
    (hw : w.Consistent) (hpeopled : w.Peopled) (s : Nat) : Roster.Truthful f (w.rosters s) where
  sound := (hw s).slots
  distinct := (hw s).distinct
  fits := h.stored s
  peopled := hpeopled s

namespace Roster

variable {f : ObjectId → HashOutcome} {m : Roster} {id : ListenerId} {o : ObjectId} {k : Key}

/-! ## The map -/

theorem directory_of_get? (h : m.get? id = some k) : directory m id = k.handle := by
  rw [directory, h]
  rfl

theorem Truthful.directory_eq_none_iff (h : Truthful f m) :
    directory m id = none ↔ m.get? id = none := by
  cases hk : m.get? id with
  | none => simp [directory, hk]
  | some k => simp [directory, hk, h.peopled id k hk]

/-- The ids of the entries are those that stand for an object. -/
theorem Truthful.mem_ids_iff (h : Truthful f m) :
    id ∈ m.entries.map (·.1) ↔ directory m id ≠ none := by
  rw [ne_eq, h.directory_eq_none_iff, ← ne_eq, Option.ne_none_iff_exists', List.mem_map]
  constructor
  · rintro ⟨⟨id, k⟩, he, rfl⟩
    exact ⟨k, SlotTable.mem_entries.1 he⟩
  · rintro ⟨k, hk⟩
    exact ⟨(id, k), SlotTable.mem_entries.2 hk, rfl⟩

/-- The entry on an object is the one with the key that fits it. -/
theorem Truthful.get?_iff (h : Truthful f m) {hash : UInt64} (hf : f o = .ok hash) :
    m.get? id = some ⟨some o, hash⟩ ↔ directory m id = some o := by
  refine ⟨directory_of_get?, fun hid => ?_⟩
  obtain ⟨k, hk, hhandle⟩ := Option.bind_eq_some_iff.1 hid
  have hkey : Key.Fits f ⟨some o, hash⟩ := hf
  rw [hk, (h.fits id k hk).ext hkey hhandle]

/-- **No object occurs twice.** -/
theorem Truthful.injective (h : Truthful f m) {id' : ListenerId} (hid : directory m id = some o)
    (hid' : directory m id' = some o) : id = id' := by
  obtain ⟨k, hk, hhandle⟩ := Option.bind_eq_some_iff.1 hid
  obtain ⟨k', hk', hhandle'⟩ := Option.bind_eq_some_iff.1 hid'
  obtain rfl : k = k' := (h.fits id k hk).ext (h.fits id' k' hk') (hhandle.trans hhandle'.symm)
  exact id_unique h.distinct (SlotTable.mem_entries.2 hk) (SlotTable.mem_entries.2 hk')

/-- Looking for a key that fits is looking for its object. -/
theorem Truthful.idOf?_iff (h : Truthful f m) {hash : UInt64} (hf : f o = .ok hash) :
    idOf? m ⟨some o, hash⟩ = some id ↔ directory m id = some o := by
  rw [idOf?_eq_some_iff h.distinct, SlotTable.mem_entries]
  exact h.get?_iff hf

theorem Truthful.idOf?_eq_none_iff (h : Truthful f m) {hash : UInt64} (hf : f o = .ok hash) :
    idOf? m ⟨some o, hash⟩ = none ↔ ∀ id, directory m id ≠ some o := by
  simp only [Option.eq_none_iff_forall_not_mem, Option.mem_def, h.idOf?_iff hf, ne_eq]

/-- The entries with their objects. -/
def listing (m : Roster) : List (ListenerId × Handle) := m.entries.map fun e => (e.1, e.2.handle)

theorem nodup_listing (m : Roster) : ((listing m).map (·.1)).Nodup := by
  rw [listing, List.map_map]
  exact m.nodup_ids

/-- **The list of the entries is the map.** -/
theorem Truthful.mem_listing (h : Truthful f m) {p : Handle} :
    (id, p) ∈ listing m ↔ directory m id = p ∧ p ≠ none := by
  unfold listing
  rw [List.mem_map]
  constructor
  · rintro ⟨⟨id', k⟩, hk, he⟩
    cases he
    have hget := SlotTable.mem_entries.1 hk
    exact ⟨directory_of_get? hget, h.peopled _ k hget⟩
  · rintro ⟨rfl, hp⟩
    obtain ⟨o, ho⟩ := Option.ne_none_iff_exists'.1 hp
    obtain ⟨k, hk, hhandle⟩ := Option.bind_eq_some_iff.1 ho
    exact ⟨(id, k), SlotTable.mem_entries.2 hk, by rw [ho, hhandle]⟩

/-! ## Actions on the map -/

theorem take_fst (m : Roster) (id : ListenerId) : (take m id).1 = m.get? id := by
  unfold take
  cases hr : m.remove id with
  | none => rw [SlotTable.remove_eq_none_iff.1 hr]
  | some found =>
    obtain ⟨k, hk, he⟩ := Option.map_eq_some_iff.1 hr
    rw [← he, hk]

/-- Storing a key puts its object under a new id, unless the key is there. -/
theorem directory_add (h : Truthful f m) (k : Key) :
    (∃ i, idOf? m k = some i ∧ (add m k).1 = none ∧ directory (add m k).2 = directory m) ∨
      ∃ i, idOf? m k = none ∧ (add m k).1 = some i ∧ directory m i = none ∧
        directory (add m k).2 = Function.update (directory m) i k.handle := by
  cases hid : idOf? m k with
  | some i => exact Or.inl ⟨i, rfl, by rw [add_of_present hid], by rw [add_of_present hid]⟩
  | none =>
    refine Or.inr ⟨(m.insert k).1, rfl, by rw [add_of_absent hid], ?_, ?_⟩
    · rw [directory, SlotTable.get?_insert_fresh h.sound]
      rfl
    · rw [add_of_absent hid]
      funext i
      simp only [directory, Function.update_apply, SlotTable.get?_insert h.sound]
      split <;> rfl

/-- An action that stores nothing takes out what it unlinks. -/
theorem directory_apply {a : Action} (hinsert : ∀ k, a ≠ .insert k) :
    directory (apply m a).2 = fun id => if a.unlinks m id then none else directory m id := by
  funext id
  unfold directory
  rw [get?_apply hinsert]
  split <;> rfl

theorem get?_take (m : Roster) (id i : ListenerId) :
    (take m id).2.get? i = if i = id then none else m.get? i := by
  have happly : (apply m (.removeId id)).2.get? i =
      if (Action.removeId id).unlinks m i then none else m.get? i := by
    apply get?_apply
    nofun
  show (apply m (.removeId id)).2.get? i = _
  rw [happly]
  by_cases hi : i = id
  · subst hi
    cases hk : m.get? i <;> simp [Action.unlinks, hk]
  · have hi' : id ≠ i := fun e => hi e.symm
    simp [Action.unlinks, hi, hi']

theorem get?_strike (m : Roster) (ids : List ListenerId) (i : ListenerId) :
    (strike m ids).2.get? i = if i ∈ ids then none else m.get? i := by
  have happly : (apply m (.strike ids)).2.get? i =
      if (Action.strike ids).unlinks m i then none else m.get? i := by
    apply get?_apply
    nofun
  show (apply m (.strike ids)).2.get? i = _
  rw [happly]
  cases hk : m.get? i <;> simp [Action.unlinks, hk]

theorem directory_take (m : Roster) (id : ListenerId) :
    directory (take m id).2 = Function.update (directory m) id none := by
  funext i
  unfold directory
  rw [get?_take, Function.update_apply]
  split <;> rfl

/-- Taking out the entry on an object. -/
theorem withdraw_of_mem (h : Truthful f m) {hash : UInt64} (hf : f o = .ok hash)
    (hid : directory m id = some o) :
    (withdraw m ⟨some o, hash⟩).1 = some ⟨some o, hash⟩ ∧
      directory (withdraw m ⟨some o, hash⟩).2 = Function.update (directory m) id none := by
  unfold withdraw
  rw [(h.idOf?_iff hf).2 hid]
  exact ⟨(take_fst m id).trans ((h.get?_iff hf).2 hid), directory_take m id⟩

theorem withdraw_of_not_mem (h : Truthful f m) {hash : UInt64} (hf : f o = .ok hash)
    (hid : ∀ id, directory m id ≠ some o) : withdraw m ⟨some o, hash⟩ = (none, m) := by
  unfold withdraw
  rw [(h.idOf?_eq_none_iff hf).2 hid]

theorem directory_drain (m : Roster) : directory m.drain.2 = fun _ => none := by
  have happly : directory (apply m .clear).2 = _ := directory_apply nofun
  rw [show m.drain.2 = (apply m .clear).2 from rfl, happly]
  funext id
  cases hk : m.get? id <;> simp [Action.unlinks, directory, hk]

theorem directory_empty : directory SlotTable.empty = fun _ => none := by
  funext id
  rw [directory, SlotTable.get?_empty]
  rfl

/-- Entries that are there, each named once, are all taken out. -/
theorem strike_fst {ids : List ListenerId} (hnodup : ids.Nodup)
    (hpresent : ∀ id ∈ ids, m.get? id ≠ none) : (strike m ids).1.map (·.1) = ids := by
  induction ids generalizing m with
  | nil => rfl
  | cons id ids ih =>
    obtain ⟨hid, hnodup⟩ := List.nodup_cons.1 hnodup
    rw [List.forall_mem_cons] at hpresent
    obtain ⟨k, hk⟩ := Option.ne_none_iff_exists'.1 hpresent.1
    have hrest : ∀ i ∈ ids, (take m id).2.get? i ≠ none := by
      intro i hi
      have hne : i ≠ id := by
        rintro rfl
        exact hid hi
      rw [get?_take, if_neg hne]
      exact hpresent.2 i hi
    have htail := ih hnodup hrest
    simp only [strike, take_fst, hk, Option.map_some, Option.toList_some, List.cons_append,
      List.nil_append, List.map_cons, htail]

end Roster

end ListenerRegistry
