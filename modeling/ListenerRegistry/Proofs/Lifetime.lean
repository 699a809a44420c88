import ListenerRegistry.Proofs.Entries
import ListenerRegistry.Proofs.Serialization
import Mathlib.Tactic.Ring

/-!
# The lifetime of an id

A slot counts the times it was vacated: its version is twice that number, and one
more while it is occupied. The number only grows, and an id carries the version of
its slot, so an id that was unlinked does not resolve again and is not issued
again. Versions have 32 bits, so all this is about slots that were vacated less
than `2 ^ 31` times.
-/

namespace ListenerRegistry

/-! ## The age of a slot -/

/-- Slot `i` has been vacated `n i` times. -/
structure SlotTable.Aged {α : Type} (n : Nat → Nat) (m : SlotTable α) : Prop where
  version : ∀ (j : Nat) (s : Slot α), m.slots[j]? = some s →
    s.version = .ofNat (2 * n (j + 1) + s.content.isSome.toNat)
  unused : ∀ j : Nat, m.slots[j]? = none → n (j + 1) = 0

/-- Whether the action vacates slot `i`. -/
def Action.vacates (m : Roster) (a : Action) (i : Nat) : Bool :=
  (m.entryAt? i).any fun e => a.unlinks m e.1

namespace SlotTable

variable {α : Type} {m : SlotTable α} {n : Nat → Nat}

theorem aged_empty : (empty : SlotTable α).Aged fun _ => 0 where
  version j s h := by simp [empty] at h
  unused _ _ := rfl

/-- The version of an id tells how often the slot had been vacated. -/
theorem Aged.version_of_get? (h : m.Aged n) {id : SlotId} {a : α} (hget : m.get? id = some a) :
    id.version = .ofNat (2 * n id.index + 1) := by
  obtain ⟨i, hi, hs⟩ := getElem?_of_get? hget
  rw [hi]
  simpa using h.version i _ hs

/-- Storing a value makes no slot older. -/
theorem Aged.insert (hm : m.Sound) (h : m.Aged n) (a : α) : (m.insert a).2.Aged n := by
  obtain ⟨slots, vacant, size⟩ := m
  unfold SlotTable.insert
  cases vacant with
  | nil =>
    refine ⟨fun j s hs => ?_, fun j hs => ?_⟩
    · simp only [List.getElem?_append] at hs
      split at hs
      · exact h.version j s hs
      · rename_i hj
        have hunused := h.unused j (List.getElem?_eq_none (Nat.le_of_not_lt hj))
        obtain rfl : (⟨1, some a⟩ : Slot α) = s := by
          have := List.mem_of_getElem? hs
          simpa [eq_comm] using this
        simp [hunused]
    · have hlength : slots.length + 1 ≤ j := by simpa using hs
      exact h.unused j (List.getElem?_eq_none (Nat.le_of_succ_le hlength))
  | cons i vacant =>
    -- the slot that is filled was vacant
    have hvacant := (hm.mem_vacant i).1 List.mem_cons_self
    refine ⟨fun j s hs => ?_, fun j hs => ?_⟩
    · simp only [List.getElem?_modify] at hs
      by_cases hij : i = j
      · subst hij
        obtain ⟨t, ht, hc⟩ := hvacant
        have hversion := h.version i t ht
        obtain rfl : t.fill a = s := by simpa [ht] using hs
        simp [Slot.fill, hversion, hc]
      · obtain ⟨t, ht, rfl⟩ : ∃ t, slots[j]? = some t ∧ t = s := by simpa [hij] using hs
        exact h.version j t ht
    · refine h.unused j ?_
      simpa using hs

end SlotTable

namespace Roster

variable {m : Roster} {a : Action} {n : Nat → Nat}

theorem vacates_of_unlinks {id : ListenerId} (h : a.unlinks m id = true) :
    a.vacates m id.index = true := by
  obtain ⟨k, hget⟩ := get?_of_unlinks h
  have hentry : m.entryAt? id.index = some (id, k) := SlotTable.entryAt?_eq_some_iff.2 ⟨rfl, hget⟩
  unfold Action.vacates
  rw [hentry]
  exact h

/-- A slot is vacated when its present entry is unlinked. -/
theorem vacates_of_slot {j : Nat} {s : Slot Key} (hs : m.slots[j]? = some s) :
    a.vacates m (j + 1) = a.unlinks m ⟨j + 1, s.version⟩ := by
  have hget := SlotTable.get?_of_slot hs
  unfold Action.vacates
  cases hc : s.content with
  | none =>
    rw [hc] at hget
    simp [SlotTable.entryAt?, SlotTable.slotAt?, hs, hc, Action.unlinks, hget]
  | some k => simp [SlotTable.entryAt?, SlotTable.slotAt?, hs, hc]

theorem vacates_of_no_slot {j : Nat} (hs : m.slots[j]? = none) : a.vacates m (j + 1) = false := by
  simp [Action.vacates, SlotTable.entryAt?, SlotTable.slotAt?, hs]

/-- **An action makes those slots older that it vacates.** -/
theorem aged_apply (hm : m.Sound) (h : m.Aged n) (hdiscard : a ≠ .discard) :
    (apply m a).2.Aged fun i => n i + (a.vacates m i).toNat := by
  by_cases hinsert : ∃ k, a = .insert k
  · obtain ⟨k, rfl⟩ := hinsert
    have hnone : (fun i => n i + (Action.vacates m (.insert k) i).toNat) = n := by
      funext i
      cases hentry : m.entryAt? i <;> simp [Action.vacates, Action.unlinks, hentry]
    rw [hnone]
    show (add m k).2.Aged n
    unfold add
    split
    · exact h
    · exact h.insert hm k
  have hslot := getElem?_apply (m := m) (fun k hk => hinsert ⟨k, hk⟩) hdiscard
  constructor
  · intro j s' hs'
    rw [hslot] at hs'
    obtain ⟨s, hs, hs'⟩ := Option.map_eq_some_iff.1 hs'
    rw [vacates_of_slot hs]
    have hversion := h.version j s hs
    split at hs'
    · rename_i hu
      obtain ⟨k, hget⟩ := get?_of_unlinks hu
      rw [SlotTable.get?_of_slot hs] at hget
      rw [hget] at hversion
      rw [hu]
      subst hs'
      show s.version + 1 = UInt32.ofNat (2 * (n (j + 1) + 1) + 0)
      rw [hversion, ← UInt32.ofNat_one, ← UInt32.ofNat_add]
      rfl
    · rename_i hu
      subst hs'
      simpa [hu] using hversion
  · intro j hs'
    rw [hslot, Option.map_eq_none_iff] at hs'
    simp [vacates_of_no_slot hs', h.unused j hs']

end Roster

/-! ## Ages along a run -/

theorem World.Consistent.roster {w : World} (h : w.Consistent) (s : Nat) : (w.rosters s).Sound :=
  (h s).slots

namespace Machine

/-- The next turn takes the entry `id` out of registry `s`. -/
def unlinks (s : Nat) (id : ListenerId) (m : Machine) : Bool :=
  m.act?.any fun x => x.registry == s && x.action.unlinks (m.world.rosters s) id

/-- The next turn vacates slot `i` of registry `s`. -/
def vacates (s i : Nat) (m : Machine) : Bool :=
  m.act?.any fun x => x.registry == s && x.action.vacates (m.world.rosters s) i

/-- The id that the next turn stores a listener under, in registry `s`. -/
def issues? (s : Nat) (m : Machine) : Option ListenerId :=
  m.act?.bind fun x =>
    match x.action, x.reply with
    | .insert _, .id (some id) => if x.registry = s then some id else none
    | _, _ => none

/-- The next turn does not replace registry `s` by a new one. -/
def Keeps (s : Nat) (m : Machine) : Prop := ∀ x ∈ m.act?, x.registry = s → x.action ≠ .discard

instance (s : Nat) (m : Machine) : Decidable (m.Keeps s) := by
  unfold Keeps
  infer_instance

/-- In the turns that start at the given machines, registry `s` stays the same one,
and no version comes round again: the slots that had been vacated `n i` times have
room for those turns. -/
structure Lasting (s : Nat) (n : Nat → Nat) (ms : List Machine) : Prop where
  keeps : ∀ c ∈ ms, c.Keeps s
  room : ∀ i, n i + ms.countP (vacates s i) < 2 ^ 31

variable {a b : Machine} {s : Nat} {id : ListenerId} {k : Key} {n : Nat → Nat}
  {ms ns : List Machine}

theorem Lasting.left (h : Lasting s n (ms ++ ns)) : Lasting s n ms where
  keeps c hc := h.keeps c (List.mem_append_left ns hc)
  room i := by
    have := h.room i
    rw [List.countP_append] at this
    omega

theorem Lasting.right (h : Lasting s n (ms ++ ns)) :
    Lasting s (fun i => n i + ms.countP (vacates s i)) ns where
  keeps c hc := h.keeps c (List.mem_append_right ms hc)
  room i := by
    have := h.room i
    rw [List.countP_append] at this
    omega

/-- A turn does nothing to a registry, or applies an action to its contents. -/
theorem Turn.apply_or_same (h : Turn a b) (ha : a.world.Consistent) (s : Nat) :
    (b.world.rosters s = a.world.rosters s ∧ (∀ id, a.unlinks s id = false) ∧
        ∀ i, a.vacates s i = false) ∨
      ∃ x, a.act? = some x ∧ x.registry = s ∧
        b.world.rosters s = (Roster.apply (a.world.rosters s) x.action).2 ∧
        (∀ id, a.unlinks s id = x.action.unlinks (a.world.rosters s) id) ∧
        ∀ i, a.vacates s i = x.action.vacates (a.world.rosters s) i := by
  cases hx : a.act? with
  | none =>
    left
    rw [h.rosters_of_none ha hx]
    simp [unlinks, vacates, hx]
  | some x =>
    have hrosters := congrFun (h.rosters_of_act ha hx).2 s
    by_cases hs : s = x.registry
    · right
      rw [if_pos hs] at hrosters
      subst hs
      exact ⟨x, rfl, rfl, hrosters, by simp [unlinks, hx], by simp [vacates, hx]⟩
    · left
      rw [if_neg hs] at hrosters
      exact ⟨hrosters, by simp [unlinks, hx, Ne.symm hs], by simp [vacates, hx, Ne.symm hs]⟩

/-- **Slots age by the number of times they are vacated.** -/
theorem Run.aged (h : Run a ms b) (ha : a.world.Consistent) (hkeeps : ∀ c ∈ ms, c.Keeps s)
    (hn : (a.world.rosters s).Aged n) :
    (b.world.rosters s).Aged fun i => n i + ms.countP (vacates s i) := by
  induction h generalizing n with
  | nil => simpa using hn
  | @cons a c b ms hturn _ ih =>
    rw [List.forall_mem_cons] at hkeeps
    have hnext : (c.world.rosters s).Aged fun i => n i + (a.vacates s i).toNat := by
      rcases hturn.apply_or_same ha s with ⟨hsame, -, hv⟩ | ⟨x, hx, hs, happly, -, hv⟩
      · rw [hsame]
        simpa [hv] using hn
      · rw [happly]
        simp only [hv]
        exact Roster.aged_apply (ha.roster s) hn (hkeeps.1 x hx hs)
    have hcount : ∀ i, n i + (a :: ms).countP (vacates s i) =
        n i + (a.vacates s i).toNat + ms.countP (vacates s i) := by
      intro i
      rw [List.countP_cons]
      cases a.vacates s i <;> simp +arith
    simpa only [hcount] using ih (hturn.consistent ha) hkeeps.2 hnext

/-! ## Ids that resolve -/

/-- **An id goes on resolving to the same key** until it is unlinked. -/
theorem Run.get?_of_kept (h : Run a ms b) (ha : a.world.Consistent)
    (hkept : ∀ c ∈ ms, c.unlinks s id = false) (hget : (a.world.rosters s).get? id = some k) :
    (b.world.rosters s).get? id = some k := by
  induction h with
  | nil => exact hget
  | @cons a c b ms hturn _ ih =>
    rw [List.forall_mem_cons] at hkept
    refine ih (hturn.consistent ha) hkept.2 ?_
    rcases hturn.apply_or_same ha s with ⟨hsame, -, -⟩ | ⟨x, -, -, happly, hu, -⟩
    · rw [hsame]
      exact hget
    · rw [happly, Roster.get?_apply_of_some (ha.roster s) x.action hget, ← hu, hkept.1]
      rfl

/-- A turn that stores a listener stores it under an id that resolved to nothing. -/
theorem Turn.get?_of_issues (h : Turn a b) (ha : a.world.Consistent) (hid : a.issues? s = some id) :
    (a.world.rosters s).get? id = none ∧
      ∃ k, a.act? = some ⟨s, .insert k, .id (some id)⟩ ∧
        (b.world.rosters s).get? id = some k := by
  unfold issues? at hid
  obtain ⟨⟨s', action, reply⟩, hx, hid⟩ := Option.bind_eq_some_iff.1 hid
  split at hid
  · rename_i k id' hinsert hreply
    split at hid
    · rename_i hs
      cases hid
      obtain rfl : action = .insert k := hinsert
      obtain rfl : reply = .id (some id) := hreply
      obtain rfl : s' = s := hs
      obtain ⟨hreply, hrosters⟩ := h.rosters_of_act ha hx
      have hadd : (Roster.add (a.world.rosters s') k).1 = some id := (Reply.id.inj hreply).symm
      have hstored : b.world.rosters s' = (Roster.add (a.world.rosters s') k).2 := by
        rw [hrosters]
        exact if_pos rfl
      refine ⟨Roster.get?_of_add (ha.roster s') hadd, k, hx, ?_⟩
      rw [hstored, Roster.get?_add (ha.roster s'), if_pos hadd]
    · cases hid
  · cases hid

/-! ## Ids that were unlinked -/

/-- An id that the next turn unlinks resolves, and its slot is vacated. -/
theorem get?_of_unlinks (h : a.unlinks s id = true) :
    (∃ k, (a.world.rosters s).get? id = some k) ∧ a.vacates s id.index = true := by
  unfold unlinks at h
  rw [Option.any_eq_true] at h
  obtain ⟨x, hx, hu⟩ := h
  rw [Bool.and_eq_true] at hu
  refine ⟨Roster.get?_of_unlinks hu.2, ?_⟩
  simp [vacates, hx, hu.1, Roster.vacates_of_unlinks hu.2]

/-- As long as versions do not come round again, they tell ages apart. -/
theorem age_unique {v w : Nat} (hv : v < 2 ^ 31) (hw : w < 2 ^ 31)
    (h : UInt32.ofNat (2 * v + 1) = UInt32.ofNat (2 * w + 1)) : v = w := by
  have := congrArg UInt32.toNat h
  simp only [UInt32.toNat_ofNat'] at this
  omega

/-- **An id that was unlinked does not resolve again**, however often its slot is
used again. -/
theorem Run.expired (h : Run a ms b) (ha : a.world.Consistent) (hlasting : Lasting s n ms)
    (hn : (a.world.rosters s).Aged n) {d : Machine} (hd : d ∈ ms) (hu : d.unlinks s id = true) :
    (b.world.rosters s).get? id = none := by
  obtain ⟨before, after, rfl⟩ := List.append_of_mem hd
  obtain ⟨hbefore, hafter⟩ := h.split
  have hconsistent : d.world.Consistent := (hbefore.preserves_consistent ha).1
  have hage := hbefore.aged ha hlasting.left.keeps hn
  have hage' := hafter.aged hconsistent hlasting.right.keeps hage
  obtain ⟨⟨k, hget⟩, hv⟩ := get?_of_unlinks hu
  refine Option.eq_none_iff_forall_not_mem.2 fun k' hk' => ?_
  -- the slot would have to be as old as it was before it was vacated
  have hversion := (hage.version_of_get? hget).symm.trans (hage'.version_of_get? hk')
  have hroom := hlasting.right.room id.index
  rw [List.countP_cons_of_pos hv] at hversion hroom
  have := age_unique (by omega) hroom hversion
  omega

/-- **An id that resolves is not issued again**, even if it is unlinked meanwhile. -/
theorem Run.not_issued (h : Run a ms b) (ha : a.world.Consistent) (hlasting : Lasting s n ms)
    (hn : (a.world.rosters s).Aged n) (hget : (a.world.rosters s).get? id = some k) :
    id ∉ ms.filterMap (issues? s) := by
  intro hmem
  obtain ⟨c, hc, hissue⟩ := List.mem_filterMap.1 hmem
  obtain ⟨before, after, rfl⟩ := List.append_of_mem hc
  obtain ⟨hbefore, hafter⟩ := h.split
  cases hafter with
  | @cons _ d _ _ hturn _ =>
    have hconsistent : c.world.Consistent := (hbefore.preserves_consistent ha).1
    obtain ⟨hfresh, k', -, hstored⟩ := hturn.get?_of_issues hconsistent hissue
    by_cases hkept : ∀ e ∈ before, e.unlinks s id = false
    · rw [hbefore.get?_of_kept ha hkept hget] at hfresh
      cases hfresh
    · obtain ⟨e, he, hu⟩ : ∃ e ∈ before, e.unlinks s id = true := by simpa using hkept
      rw [List.append_cons] at hlasting
      have hexpired := (hbefore.append (.cons hturn (.nil d))).expired ha hlasting.left hn
        (List.mem_append_left _ he) hu
      rw [hexpired] at hstored
      cases hstored

/-- The ids that are issued are pairwise distinct. -/
theorem Run.nodup_issues (h : Run a ms b) (ha : a.world.Consistent) (hlasting : Lasting s n ms)
    (hn : (a.world.rosters s).Aged n) : (ms.filterMap (issues? s)).Nodup := by
  induction h generalizing n with
  | nil => exact List.nodup_nil
  | @cons a c b ms hturn hrun ih =>
    have hlasting : Lasting s n ([a] ++ ms) := hlasting
    have hage := (Run.cons hturn (.nil c)).aged ha hlasting.left.keeps hn
    have hrest := ih (hturn.consistent ha) hlasting.right hage
    cases hid : a.issues? s with
    | none =>
      rw [List.filterMap_cons_none hid]
      exact hrest
    | some id =>
      obtain ⟨-, k, -, hstored⟩ := hturn.get?_of_issues ha hid
      rw [List.filterMap_cons_some hid, List.nodup_cons]
      exact ⟨hrun.not_issued (hturn.consistent ha) hlasting.right hage hstored, hrest⟩

/-- A run passes through the machines at which its turns start, and ends in the
last one. -/
theorem Run.upTo (h : Run a ms b) {before after : List Machine} {e : Machine}
    (hsplit : ms ++ [b] = before ++ e :: after) :
    Run a before e ∧ ∃ rest, ms = before ++ rest := by
  rcases List.eq_nil_or_concat after with rfl | ⟨after, b', rfl⟩
  · obtain ⟨rfl, hb⟩ := List.append_inj' hsplit rfl
    cases hb
    exact ⟨h, [], by simp⟩
  · rw [List.concat_eq_append, ← List.cons_append, ← List.append_assoc] at hsplit
    obtain ⟨rfl, -⟩ := List.append_inj' hsplit rfl
    exact ⟨h.split.1, e :: after, rfl⟩

/-- **An id is issued once and resolves for one life.** In the history of one
registry, from when it was new, the ids under which listeners are stored are pairwise
distinct. An id resolves to the key that was stored under it, whatever other
operations are performed, until an operation unlinks it. From then on it never
resolves again, and unlinking it does nothing. The history is that of all operations,
also those of hooks, and no slot is vacated `2 ^ 31` times in it. -/
theorem ids_live_once {objects : List ForeignObject} {steps : List Step} {a b : Machine}
    {earlier ms : List Machine} {s : Nat} (hearlier : Run (session objects steps) earlier a)
    (hnew : a.world.registry s = .empty) (h : Run a ms b) (hkeeps : ∀ c ∈ ms, c.Keeps s)
    (hroom : ∀ i, ms.countP (vacates s i) < 2 ^ 31) :
    (ms.filterMap (issues? s)).Nodup ∧
      ∀ (before between after : List Machine) (c e : Machine) (id : ListenerId),
        ms ++ [b] = before ++ c :: (between ++ e :: after) → c.issues? s = some id →
        ∃ k, c.act? = some ⟨s, .insert k, .id (some id)⟩ ∧
          ((∀ d ∈ between, d.unlinks s id = false) → (e.world.registry s).get? id = some k) ∧
          ((∃ d ∈ between, d.unlinks s id = true) → (e.world.registry s).get? id = none ∧
            (e.world.registry s).unlink id = .ok (none, e.world.registry s)) := by
  have ha : a.world.Consistent := hearlier.consistent.1
  have hlasting : Lasting s (fun _ => 0) ms := ⟨hkeeps, by simpa using hroom⟩
  have hage : (a.world.rosters s).Aged fun _ => 0 := by
    rw [World.rosters, hnew]
    exact SlotTable.aged_empty
  refine ⟨h.nodup_issues ha hlasting hage, ?_⟩
  intro before between after c e id hsplit hissue
  rw [← List.cons_append, ← List.append_assoc] at hsplit
  obtain ⟨hrun, rest, rfl⟩ := h.upTo hsplit
  obtain ⟨hbefore, hlife⟩ := hrun.split
  have hconsistent : ∀ {d : Machine} {ds : List Machine}, Run a ds d → d.world.Consistent :=
    fun hd => (hd.preserves (P := fun m => m.world.Consistent)
      (fun _ _ hm hmn => hmn.consistent hm) ha).1
  cases hlife with
  | @cons _ d _ _ hturn hbetween =>
    obtain ⟨-, k, hact, hstored⟩ := hturn.get?_of_issues (hconsistent hbefore) hissue
    refine ⟨k, hact, ?_, ?_⟩
    · intro hkept
      exact hbetween.get?_of_kept (hturn.consistent (hconsistent hbefore)) hkept hstored
    · rintro ⟨d, hd, hu⟩
      have hexpired := hrun.expired ha hlasting.left hage
        (List.mem_append_right _ (List.mem_cons_of_mem _ hd)) hu
      exact ⟨hexpired, Registry.unlink_of_stale (hconsistent hrun s).idle hexpired⟩

/-- The contest, after which the second object is registered once more. -/
def rematchSteps : List Step :=
  contestSteps ++ [.op (.registry (.insert 0 (.fresh (some 1)) none))]

/-- In a rematch the second object gets its old slot again, under a new id. The old id,
which its hash function unlinked while it was being removed, stays stale. -/
theorem ids_live_once_in_rematch :
    (visited contest 46 (session meetingObjects rematchSteps)).filterMap (issues? 0) =
        [⟨1, 1⟩, ⟨2, 1⟩, ⟨2, 3⟩] ∧
      ((visited contest 46 (session meetingObjects rematchSteps)).filterMap (issues? 0)).Nodup ∧
      (((session meetingObjects rematchSteps).turns contest 46).world.registry 0).get? ⟨2, 3⟩ =
        some ⟨some 1, 0x2000⟩ ∧
      (((session meetingObjects rematchSteps).turns contest 46).world.registry 0).get? ⟨2, 1⟩ =
        none := by
  have hroom : ∀ i, (visited contest 46 (session meetingObjects rematchSteps)).countP
      (vacates 0 i) < 2 ^ 31 := by
    intro i
    have hlength : (visited contest 46 (session meetingObjects rematchSteps)).length = 46 := by
      decide +kernel
    have := List.countP_le_length (p := vacates 0 i)
      (l := visited contest 46 (session meetingObjects rematchSteps))
    omega
  obtain ⟨hnodup, hlife⟩ := ids_live_once (.nil _) rfl
    (run_visited contest 46 (session meetingObjects rematchSteps)) (by decide +kernel) hroom
  have hsplit : visited contest 46 (session meetingObjects rematchSteps) =
      visited contest 20 (session meetingObjects rematchSteps) ++
        (session meetingObjects rematchSteps).turns contest 20 ::
          visited contest 25 (((session meetingObjects rematchSteps).turns contest 20).turns
            contest 1) := by
    rw [visited_append contest 20 26]
    exact congrArg _ (visited_succ (by decide +kernel) 25)
  rw [hsplit, List.append_assoc, List.cons_append] at hlife
  obtain ⟨k, -, -, hexpired⟩ := hlife _ _ [] _ _ ⟨2, 1⟩ rfl (by decide +kernel)
  exact ⟨by decide +kernel, hnodup, by decide +kernel, (hexpired (by decide +kernel)).1⟩

end Machine

end ListenerRegistry
