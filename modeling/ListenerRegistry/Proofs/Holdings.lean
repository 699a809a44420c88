import ListenerRegistry.Proofs.Effect
import ListenerRegistry.Proofs.Run

/-!
# Who holds references

The handles of a world are in the handle registers, in the keys, in the hash set
and in the entries of the registries. The handles that are in none of these are
in hand: a job that waits owns them.
-/

namespace ListenerRegistry

namespace Bank

variable {α β : Type}

/-- What the registers hold, where a register with `a` holds `f a`. -/
def gather (b : Bank α) (f : α → List β) : List β := b.cells.flatMap f

variable [Inhabited α] [BEq β] {f : α → List β} {x : β}

theorem count_flatMap_writeCells (hf : (f default).count x = 0) :
    ∀ (cells : List α) (r : Nat) (a : α), ((writeCells cells r a).flatMap f).count x + (f ((cells[r]?).getD default)).count x =
      (cells.flatMap f).count x + (f a).count x
  | [], 0, a => by simp [writeCells, hf]
  | [], r + 1, a => by
    have ih := count_flatMap_writeCells hf [] r a
    simpa [writeCells, hf] using ih
  | c :: cells, 0, a => by
    simp [writeCells]
    omega
  | c :: cells, r + 1, a => by
    have ih := count_flatMap_writeCells hf cells r a
    simp [writeCells]
    omega

/-- Writing a register exchanges what it holds. -/
theorem count_gather_write (hf : (f default).count x = 0) (b : Bank α) (r : Nat) (a : α) :
    ((b.write r a).gather f).count x + (f (b.read r)).count x =
      (b.gather f).count x + (f a).count x :=
  count_flatMap_writeCells hf b.cells r a

theorem count_read_le (hf : (f default).count x = 0) (b : Bank α) (r : Nat) :
    (f (b.read r)).count x ≤ (b.gather f).count x := by
  have h := count_gather_write hf b r default
  omega

end Bank

/-! ## Handles in a world -/

/-- The handle of a key, if there is a key. -/
def Key.handle? (k : Option Key) : Handle := k.bind Key.handle

/-- The handles in the entries of a registry. -/
def Registry.handles (r : Registry) : List Handle := r.entries.map fun e => e.2.handle

namespace World

/-- The handles that are held in registers, keys, the hash set and registries. -/
def holdings (w : World) : List Handle :=
  w.handles.gather (fun h => [h]) ++ w.keys.gather (fun k => [Key.handle? k]) ++
    w.keySet.map Key.handle ++ w.registries.gather Registry.handles

/-- The number of handles on `o` that are held. -/
def held (w : World) (o : ObjectId) : Nat := w.holdings.count (some o)

theorem held_init (objects : List ForeignObject) (o : ObjectId) : (init objects).held o = 0 := rfl

theorem held_setHandle (w : World) (r : Nat) (new : Handle) (o : ObjectId) :
    (w.setHandle r new).held o + [w.handle r].count (some o) = w.held o + [new].count (some o) := by
  have h := Bank.count_gather_write (f := fun h : Handle => [h]) (x := some o) rfl w.handles r new
  simp only [held, holdings, setHandle, handle, List.count_append] at h ⊢
  omega

theorem held_setKey (w : World) (k : Nat) (new : Option Key) (o : ObjectId) :
    (w.setKey k new).held o + [Key.handle? (w.key? k)].count (some o) =
      w.held o + [Key.handle? new].count (some o) := by
  have h := Bank.count_gather_write (f := fun k => [Key.handle? k]) (x := some o) rfl w.keys k new
  simp only [held, holdings, setKey, key?, List.count_append] at h ⊢
  omega

theorem held_setKeySet (w : World) (keys : List Key) (o : ObjectId) :
    held { w with keySet := keys } o + (w.keySet.map Key.handle).count (some o) =
      w.held o + (keys.map Key.handle).count (some o) := by
  simp only [held, holdings, List.count_append]
  omega

theorem held_setRegistry (w : World) (s : Nat) (r : Registry) (o : ObjectId) :
    (w.setRegistry s r).held o + (w.registry s).handles.count (some o) =
      w.held o + r.handles.count (some o) := by
  have h := Bank.count_gather_write (f := Registry.handles) (x := some o) rfl w.registries s r
  simp only [held, holdings, setRegistry, registry, List.count_append] at h ⊢
  omega

theorem held_of_handle {w : World} {r : Nat} {o : ObjectId} (h : w.handle r = some o) :
    0 < w.held o := by
  have := Bank.count_read_le (f := fun h : Handle => [h]) (x := some o) rfl w.handles r
  rw [show w.handles.read r = some o from h] at this
  simp only [held, holdings, List.count_append, List.count_singleton_self] at this ⊢
  omega

theorem held_of_key {w : World} {k : Nat} {o : ObjectId} (h : Key.handle? (w.key? k) = some o) :
    0 < w.held o := by
  have := Bank.count_read_le (f := fun k => [Key.handle? k]) (x := some o) rfl w.keys k
  rw [show Key.handle? (w.keys.read k) = some o from h] at this
  simp only [held, holdings, List.count_append, List.count_singleton_self] at this ⊢
  omega

theorem held_of_entry {w : World} {s : Nat} {id : ListenerId} {k : Key} {o : ObjectId}
    (h : (id, k) ∈ (w.registry s).entries) (ho : k.handle = some o) : 0 < w.held o := by
  have := Bank.count_read_le (f := Registry.handles) (x := some o) rfl w.registries s
  have hmem : some o ∈ (w.registries.read s).handles := List.mem_map.2 ⟨_, h, ho⟩
  have hpos := List.count_pos_iff.2 hmem
  simp only [held, holdings, List.count_append] at this ⊢
  omega

end World

/-! ## What operations on registries do to the handles -/

namespace Registry

variable {r r' : Registry}

theorem handles_register (h : r.Sound) {k : Key} {id? : Option ListenerId}
    (hr : r.register k = .ok (id?, r')) (o : ObjectId) :
    r'.handles.count (some o) + (if id? = none then [k.handle] else []).count (some o) =
      r.handles.count (some o) + [k.handle].count (some o) := by
  obtain ⟨r'', hr', hslots, -⟩ := register_eq h k
  obtain ⟨rfl, rfl⟩ : (Roster.add r.slots k).1 = id? ∧ r'' = r' := by simpa [hr'] using hr
  simp only [handles, entries, hslots]
  cases hid : Roster.idOf? r.slots k with
  | some id => simp [Roster.add_of_present hid]
  | none =>
    obtain ⟨before, after, he, he'⟩ := SlotTable.entries_insert h.slots k
    simp [Roster.add_of_absent hid, he, he', List.count_cons]
    omega

theorem handles_unlink (h : r.Sound) {id : ListenerId} {found : Option Key}
    (hr : r.unlink id = .ok (found, r')) (o : ObjectId) :
    r'.handles.count (some o) + [Key.handle? found].count (some o) = r.handles.count (some o) := by
  obtain ⟨r'', hr', hslots, -⟩ := unlink_eq h id
  obtain ⟨rfl, rfl⟩ : (Roster.take r.slots id).1 = found ∧ r'' = r' := by simpa [hr'] using hr
  simp only [handles, entries, hslots]
  cases hremove : r.slots.remove id with
  | none => simp [Roster.take_of_stale hremove, Key.handle?]
  | some removed =>
    obtain ⟨k, slots⟩ := removed
    obtain ⟨before, after, he, he'⟩ := SlotTable.entries_of_remove hremove
    simp [Roster.take_of_remove hremove, he, he', Key.handle?, List.count_cons]
    omega

theorem handles_prune (h : r.Sound) {ids : List ListenerId} {removed : List (ListenerId × Key)}
    (hr : r.prune ids = .ok (removed, r')) (o : ObjectId) :
    r'.handles.count (some o) + (removed.map fun e => e.2.handle).count (some o) =
      r.handles.count (some o) := by
  induction ids generalizing r r' removed with
  | nil =>
    cases hr
    simp
  | cons id ids ih =>
    obtain ⟨r₁, hunlink, -, h₁⟩ := unlink_eq h id
    simp only [prune, hunlink, bind, Except.bind] at hr
    split at hr
    · cases hr
    · rename_i v hprune
      obtain ⟨rest, r₂⟩ := v
      cases hr
      have hfirst := handles_unlink h hunlink o
      have hrest := ih h₁ hprune
      cases hfound : (Roster.take r.slots id).1 with
      | none =>
        simp [hfound, Key.handle?] at hfirst ⊢
        omega
      | some k =>
        simp [hfound, Key.handle?, List.count_cons] at hfirst ⊢
        omega

theorem handles_drain (h : r.Sound) {keys : List Key} (hr : r.drain = .ok (keys, r')) :
    r'.handles = [] ∧ keys.map Key.handle = r.handles := by
  obtain ⟨r'', hr', hslots, -⟩ := drain_eq h
  obtain ⟨rfl, rfl⟩ : r.slots.drain.1 = keys ∧ r'' = r' := by simpa [hr'] using hr
  refine ⟨?_, ?_⟩
  · simp only [handles, entries, hslots, SlotTable.entries_drain, List.map_nil]
  · simp [SlotTable.drain, handles, entries]

end Registry

/-! ## Handles in hand -/

/-- The handles that a job owns. -/
def Job.hands : Job → List Handle
  | release h => [h]
  | install _ new => [new]
  | ask use | hashed _ use => [use.owned]
  | perform _ | screen _ | log _ | answer _ | answerCount _ | record | gather _ _ | leave _ => []

@[simp] theorem Job.hands_releases {α : Type} (f : α → Handle) (xs : List α) :
    (xs.map fun x => release (f x)).flatMap hands = xs.map f := by
  rw [List.flatMap_map, List.map_eq_flatMap]
  rfl

/-- The handles that the jobs of a machine own. -/
def Machine.hands (m : Machine) : List Handle := m.jobs.flatMap Job.hands

/-- The number of handles on `o` that are in hand. -/
def Machine.inFlight (m : Machine) (o : ObjectId) : Nat := m.hands.count (some o)

theorem Job.hands_of_foreign {t : Job} (h : t.Foreign) : t.hands = [] := by
  cases t with
  | perform | record | leave => rfl
  | _ => exact h.elim

end ListenerRegistry
