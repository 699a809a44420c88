import ListenerRegistry.Proofs.Requests

/-!
# How registries are represented

Slots and index agree in every state that a run can reach, under any host: hashes
may fail, collide, or change from one request to the next. The index goes by the
stored hashes alone. So an entry is found by the hash that its object gave when it
was stored, and an entry whose object has changed its mind can still be listed,
and taken out by its id, by a retaining step or by emptying the registry.
-/

namespace ListenerRegistry

/-- Slots and index describe the same entries. -/
structure Registry.Faithful (r : Registry) : Prop where
  /-- Every entry is filed once, under its stored hash, and nothing else is. -/
  indexed : r.index.filed.Perm (r.entries.map filing)
  filed_once : (r.index.filed.map (·.id)).Nodup
  /-- What is filed resolves, so that the hash of an entry is never made up. -/
  resolves : ∀ x ∈ r.index.filed, ∃ k, r.get? x.id = some k ∧ r.hashOf x.id = k.hash ∧
    (∀ probe, r.holds probe x.id = (k.handle == probe)) ∧ x.hash = k.hash
  peopled : ∀ id k, r.get? id = some k → k.handle ≠ none
  /-- No two entries agree in both hash and object. -/
  distinct : ∀ id id' k, r.get? id = some k → r.get? id' = some k → id = id'
  /-- The list, the ids, the size and the slots tell of the same entries. -/
  listed : ∀ id k, (id, k) ∈ r.entries ↔ r.get? id = some k
  listed_once : (r.entries.map (·.1)).Nodup
  size : r.size = r.entries.length
  visited : r.slotNumbers.filterMap r.entryAt? = r.entries

/-- A sound registry without null is faithfully represented. -/
theorem Registry.Sound.faithful {r : Registry} (h : r.Sound)
    (hpeopled : ∀ id k, r.get? id = some k → k.handle ≠ none) : r.Faithful where
  indexed := h.indexed
  filed_once := by
    have hids := h.indexed.map Filing.id
    rw [List.map_map] at hids
    exact hids.nodup_iff.2 r.slots.nodup_ids
  resolves x hx := by
    obtain ⟨e, he, rfl⟩ := List.mem_map.1 (h.indexed.mem_iff.1 hx)
    have hget : r.get? e.1 = some e.2 := SlotTable.mem_entries.1 he
    refine ⟨e.2, hget, hashOf_of_mem he, fun probe => ?_, rfl⟩
    simp only [holds, filing, hget]
  peopled := hpeopled
  distinct id id' k hk hk' :=
    Roster.id_unique h.distinct (SlotTable.mem_entries.2 hk) (SlotTable.mem_entries.2 hk')
  listed _ _ := SlotTable.mem_entries
  listed_once := r.slots.nodup_ids
  size := h.slots.size_eq
  visited := (SlotTable.entries_eq_filterMap r.slots).symm

/-- Where no key is held twice, looking for a key finds the id that resolves to it. -/
theorem Registry.Sound.idOf?_eq_some_iff {r : Registry} (h : r.Sound) {k : Key} {id : ListenerId} :
    Roster.idOf? r.slots k = some id ↔ r.get? id = some k := by
  rw [Roster.idOf?_eq_some_iff h.distinct]
  exact SlotTable.mem_entries

/-- **A job with an action succeeds**, and does to the slots what the action does to rosters. -/
theorem Job.slots_run {w : World} (hw : w.Consistent) {t : Job} {s : Nat} {a : Action}
    (ha : t.action? w = some (s, a)) :
    ∃ (out : Outcome) (hs : List Handle), t.run w = .ok out ∧
      out.jobs = hs.map .release ++
        [.answer (t.conclude (Roster.apply (w.registry s).slots a).1)] ∧
      (out.world.registry s).slots = (Roster.apply (w.registry s).slots a).2 := by
  obtain ⟨r, hp, hslots, -⟩ := Registry.perform_eq (hw s) a
  obtain ⟨out, hout, htakes⟩ := takes_run ha hp
  obtain ⟨hs, hjobs⟩ := htakes.jobs
  refine ⟨out, hs, hout, hjobs, ?_⟩
  rw [htakes.acted, hslots]

/-- The entries of the registry `s` can be looked up and taken out, whatever their
objects answer by now: no job that does so fails. -/
structure World.Accessible (w : World) (s : Nat) : Prop where
  /-- A lookup finds the entry with the hash that is given now and the identity of
  the probe. -/
  finds : ∀ o hash grip save, grip.handle w = some o → w.hashOutcome o = .ok hash →
    ∃ (out : Outcome) (id? : Option ListenerId), Job.run w (.hashed o (.find s grip save)) = .ok out ∧
      out.jobs = [.release grip.owned, .answer (.located id?)] ∧
      ∀ id, id? = some id ↔ (w.registry s).get? id = some ⟨some o, hash⟩
  /-- An entry is taken out through its id. -/
  removes : ∀ id k n dest, (w.registry s).get? id = some k → w.savedId? n = some id →
    ∃ (out : Outcome) (hs : List Handle),
      Job.run w (.perform (.op (.registry (.removeId s n dest)))) = .ok out ∧
      out.jobs = hs.map .release ++ [.answer (.entry k.handle)] ∧
      ∀ i, (out.world.registry s).get? i = if i = id then none else (w.registry s).get? i
  /-- The end of a retaining step takes out what the step rejected. -/
  prunes : ∀ sc : Screening, sc.registry = s → sc.pending = [] →
    ∃ (out : Outcome), Job.run w (.screen sc) = .ok out ∧
      ∀ i, (out.world.registry s).get? i = if i ∈ sc.doomed then none else (w.registry s).get? i
  /-- Emptying the registry takes out and releases everything, in order. -/
  clears : ∃ (out : Outcome), Job.run w (.perform (.op (.registry (.clear s)))) = .ok out ∧
    out.jobs = (w.registry s).entries.map (fun e => .release e.2.handle) ++ [.answer .cleared] ∧
    ∀ i, (out.world.registry s).get? i = none

theorem World.Consistent.accessible {w : World} (hw : w.Consistent) (s : Nat) :
    w.Accessible s where
  finds o hash grip save hgrip hhash := by
    have hcounted : (w.modifyObject o ForeignObject.countHash).Consistent := hw
    have hprobe : grip.handle (w.modifyObject o ForeignObject.countHash) = some o := by
      rw [← hgrip]
      cases grip <;> rfl
    have hlocate := Registry.locate_eq (hcounted s) hash (some o)
    simp only [Job.run, HashUse.resume, hhash, hprobe, hlocate, bind, Except.bind]
    exact ⟨_, _, rfl, rfl, fun id => (hw s).idOf?_eq_some_iff⟩
  removes id k n dest hk hn := by
    have ha : Job.action? w (.perform (.op (.registry (.removeId s n dest)))) =
        some (s, .removeId id) := by
      simp only [Job.action?, RegistryOp.action?, hn, Option.map_some]
    obtain ⟨out, hs, hrun, hjobs, hslots⟩ := Job.slots_run hw ha
    refine ⟨out, hs, hrun, ?_, fun i => ?_⟩
    · have htake : (Roster.take (w.registry s).slots id).1 = some k :=
        (Roster.take_fst _ id).trans hk
      simpa [Job.conclude, RegistryOp.conclude, Roster.apply, Reply.found, htake] using hjobs
    · unfold Registry.get?
      rw [hslots]
      exact Roster.get?_take _ id i
  prunes sc hs hpending := by
    subst hs
    have ha : Job.action? w (.screen sc) = some (sc.registry, .strike sc.doomed.reverse) := by
      simp only [Job.action?, hpending, if_true]
    obtain ⟨out, hs, hrun, -, hslots⟩ := Job.slots_run hw ha
    refine ⟨out, hrun, fun i => ?_⟩
    unfold Registry.get?
    rw [hslots]
    refine (Roster.get?_strike _ sc.doomed.reverse i).trans ?_
    simp only [List.mem_reverse]
  clears := by
    obtain ⟨r, hdrain, hslots, -⟩ := Registry.drain_eq (hw s)
    refine ⟨{ world := w.setRegistry s r
              jobs := (w.registry s).slots.drain.1.map (fun k => .release k.handle) ++
                [.answer .cleared] }, ?_, ?_, fun i => ?_⟩
    · simp only [Job.run, Op.run, RegistryOp.run, hdrain, bind, Except.bind]
      rfl
    · simp [SlotTable.drain, Registry.entries]
    · have hempty : r.slots.entries = [] := by rw [hslots, SlotTable.entries_drain]
      simp only [World.registry_setRegistry_self]
      refine Option.eq_none_iff_forall_not_mem.2 fun k hk => ?_
      have hmem := SlotTable.mem_entries.2 hk
      rw [hempty] at hmem
      cases hmem

/-! ## Lookups and retaining steps as a whole -/

namespace Performance

open Machine

/-- **A lookup goes by the hash that it gets.** If the probe is to be had and is on the object
`o`, then `o` is hashed once, and `h` is where its hash function has returned, with whatever
foreign code was in it. What is found is the entry with this hash and the identity of the
probe. -/
def Finds (p : Performance) (s : Nat) (probe : Probe) : Prop :=
  ∀ o, p.op.sought p.first.world = some o →
    ∃ h ∈ p.during,
      p.hashings = [⟨o, h.world.hashOutcome o, probe.target h.world⟩] ∧
      h.hashing? p.rest = some ⟨o, h.world.hashOutcome o, probe.target h.world⟩ ∧
      ∀ hash, h.world.hashOutcome o = .ok hash → probe.target h.world = some o →
        ∃ id?, p.answer = .located id? ∧
          ∀ id, id? = some id ↔ (h.world.registry s).get? id = some ⟨some o, hash⟩

/-- **A retaining step takes out what it rejects**, all in the turn from `e` to `d`, and it
gets at every entry: if it is left in peace, it decides about each of them. -/
structure Weeds (p : Performance) (s : Nat) (before : List Machine) (e d : Machine)
    (after : List Machine) : Prop where
  place : p.TakesPlace before e d after
  left : ∀ id, (d.world.registry s).get? id =
    if (id, false) ∈ p.rulings then none else (e.world.registry s).get? id
  reached : (∀ x ∈ p.during, x.Respects p.rest) →
    p.rulings.map (·.1) = (e.world.registry s).entries.map (·.1)

variable {p : Performance} {s : Nat}

theorem Complete.finds (hp : p.Complete) (hw : p.first.world.Consistent) {probe : Probe}
    {save : Option Nat} (hop : p.op = .find s probe save) : p.Finds s probe := by
  intro o hsought
  rw [hop] at hsought
  obtain ⟨⟨grip, w⟩, hgripped, htarget⟩ := Option.bind_eq_some_iff.1 hsought
  obtain ⟨hgrips, hsame⟩ := World.target_of_grip? hgripped
  have hprobe : grip.handle w = some o := (hgrips w).trans (hsame.trans htarget)
  have hrun : p.op.run p.first.world =
      .ok { world := w, jobs := [.ask (.find s grip save)] } := by
    simp only [hop, RegistryOp.run, hgripped, hprobe]
  obtain ⟨hooks, h, after, hduring, hbefore, hafter, hjobs, hhooks, hlonger⟩ := hp.asks hrun hprobe
  have hhashing : h.hashing? p.rest =
      some ⟨o, h.world.hashOutcome o, probe.target h.world⟩ := by
    rw [hashing?_of_hashed hjobs, ← hgrips]
    rfl
  have hmem : h ∈ p.during := by simp [hduring]
  refine ⟨h, hmem, hp.hashings_eq hw (by simp [hop]) hmem hhashing, hhashing, ?_⟩
  intro hash hhash hon
  have hconsistent : h.world.Consistent := (hbefore.preserves_consistent hw).1
  have haction : (Job.hashed o (.find s grip save)).action? h.world =
      some (s, .find ⟨some o, hash⟩) := by
    rw [Job.action?, hhash, ← hon, ← hgrips]
    rfl
  obtain ⟨d, after, rfl, -, -, -, hanswer⟩ :=
    hafter.concludes hconsistent hjobs haction hp.ends hlonger
  exact ⟨_, hanswer, fun id => (hconsistent s).idOf?_eq_some_iff⟩

/-- In the turn that takes the rejected entries out, the others stay. -/
theorem get?_of_strike {e d : Machine} (hturn : Turn e d) (he : e.world.Consistent) {x : Act}
    (hx : e.act? = some x) (hs : x.registry = s) {ruled : List (ListenerId × Bool)}
    (haction : x.action = .strike (rejected ruled)) (id : ListenerId) :
    (d.world.registry s).get? id =
      if (id, false) ∈ ruled then none else (e.world.registry s).get? id := by
  have hslots := congrFun (hturn.rosters_of_act he hx).2 s
  rw [if_pos hs.symm, hs, haction] at hslots
  have hget : (d.world.rosters s).get? id =
      if id ∈ rejected ruled then none else (e.world.rosters s).get? id := by
    rw [hslots]
    exact Roster.get?_strike _ _ id
  simp only [Roster.mem_rejected] at hget
  exact hget

theorem Complete.weeds (hp : p.Complete) (hw : p.first.world.Consistent)
    (hpeopled : p.first.world.Peopled) {keep : Keep} (hop : p.op = .retain s keep) :
    ∃ before e d after, p.Weeds s before e d after := by
  by_cases hrespect : ∀ x ∈ p.during, x.Respects p.rest
  · obtain ⟨before, e, after, sc, hdecided⟩ := hp.decides hop hw hpeopled hrespect
    have he := hdecided.consistent hp hw
    obtain ⟨d, tail, rfl, hturn, hprunes⟩ := hdecided.prunes hp hw
    refine ⟨before, e, d, tail, hprunes.place, ?_, fun _ => ?_⟩
    · rw [hprunes.ruled_all]
      exact get?_of_strike hturn he (act?_of_action he hdecided.jobs hdecided.action?) rfl rfl
    · rw [hprunes.ruled_all, hprunes.ruled, hprunes.untouched e (by simp)]
  · obtain ⟨before, e, d, after, hplace, hturn, hsettles⟩ := hp.takesPlace hw
    have he : e.world.Consistent := by
      have hrun := hplace.during ▸ hp.run
      exact (hrun.split.1.preserves_consistent hw).1
    rw [hop] at hsettles
    rcases hsettles with ⟨x, hx, ⟨hs, -, haction⟩, -⟩ | ⟨-, hdeclines⟩
    · exact ⟨before, e, d, after, hplace, get?_of_strike hturn he hx hs haction,
        fun h => absurd h hrespect⟩
    · exact absurd hdeclines RegistryOp.not_declines_retain

end Performance

namespace Machine

/-- **Registries are faithfully represented**, wherever a turn starts or a run ends,
whatever the hashes are and however they change. Lookups go by the stored hashes,
and every entry can be taken out again. -/
theorem registries_faithful {objects : List ForeignObject} {steps : List Step} {ms : List Machine}
    {m : Machine} (h : Run (session objects steps) ms m) :
    (∀ a ∈ m :: ms, ∀ s, (a.world.registry s).Faithful ∧ a.world.Accessible s) ∧
      ∀ p : Performance, p.first = m → p.Complete →
        (∀ s probe save, p.op = .find s probe save → p.Finds s probe) ∧
          ∀ s keep, p.op = .retain s keep → ∃ before e d after, p.Weeds s before e d after := by
  constructor
  · intro a ha s
    have hconsistent := h.consistent_of_mem ha
    exact ⟨(hconsistent s).faithful (h.peopled a ha s), hconsistent.accessible s⟩
  · rintro p rfl hp
    constructor
    · intro s probe save hop
      exact hp.finds h.consistent.1 hop
    · intro s keep hop
      exact hp.weeds h.consistent.1 (h.peopled p.first List.mem_cons_self) hop

/-- An object that hashes to one at first, and to two from then on. -/
def driftingObjects : List ForeignObject := [.plain 0x1000 1 ⟨[.fixed 1], .fixed 2⟩]

/-- Registers the object, looks for it, and retains nothing. -/
def driftingSteps : List Step :=
  [.op (.registry (.insert 0 (.fresh (some 0)) (some 0))),
    .op (.registry (.find 0 (.fresh (some 0)) none)),
    .op (.registry (.retain 0 (.rule (.always false))))]

/-- The machine that looks for the object and is about to get its second hash. -/
def drifted : Machine := (session driftingObjects driftingSteps).turns still 6

/-- How the object is looked for. -/
def search : Performance :=
  let first := (session driftingObjects driftingSteps).turns still 4
  ⟨.find 0 (.fresh (some 0)) none, [.perform (.op (.registry (.retain 0 (.rule (.always false)))))],
    first, visited still 5 first, first.turns still 5⟩

/-- How it is taken out. -/
def clearance : Performance :=
  let first := (session driftingObjects driftingSteps).turns still 9
  ⟨.retain 0 (.rule (.always false)), [], first, visited still 5 first, first.turns still 5⟩

/-- The object that has drifted is not found, but its id still takes it out, and so does a
retaining step. -/
theorem registries_faithful_in_drift :
    drifted.world.hashOutcome 0 = .ok 2 ∧
      (drifted.world.registry 0).get? ⟨1, 1⟩ = some ⟨some 0, 1⟩ ∧
      (drifted.world.registry 0).Faithful ∧
      (∃ (out : Outcome) (hs : List Handle),
        Job.run drifted.world (.perform (.op (.registry (.removeId 0 0 none)))) = .ok out ∧
        out.jobs = hs.map .release ++ [.answer (.entry (some 0))] ∧
        (out.world.registry 0).get? ⟨1, 1⟩ = none) ∧
      search.hashings = [⟨0, .ok 2, some 0⟩] ∧ search.answer = .located none ∧
      ∃ before e d after, clearance.TakesPlace before e d after ∧
        (d.world.registry 0).get? ⟨1, 1⟩ = none := by
  have hhash : drifted.world.hashOutcome 0 = .ok 2 := by decide +kernel
  have hentries : (drifted.world.registry 0).entries = [(⟨1, 1⟩, ⟨some 0, 1⟩)] := by decide +kernel
  have hhashings : search.hashings = [⟨0, .ok 2, some 0⟩] := by decide +kernel
  obtain ⟨hfaithful, haccessible⟩ := (registries_faithful
    (run_visited still 6 (session driftingObjects driftingSteps))).1 drifted List.mem_cons_self 0
  have hentry := (hfaithful.listed ⟨1, 1⟩ ⟨some 0, 1⟩).1 (by simp [hentries])
  have hfinds := ((registries_faithful (run_visited still 4 (session driftingObjects driftingSteps))).2
    search rfl ⟨rfl, run_visited still 5 _, rfl, by decide +kernel⟩).1 0 (.fresh (some 0)) none rfl
  have hweeds := ((registries_faithful (run_visited still 9 (session driftingObjects driftingSteps))).2
    clearance rfl ⟨rfl, run_visited still 5 _, rfl, by decide +kernel⟩).2 0 _ rfl
  refine ⟨hhash, hentry, hfaithful, ?_, hhashings, ?_, ?_⟩
  · obtain ⟨out, hs, hrun, hjobs, hget⟩ :=
      haccessible.removes ⟨1, 1⟩ ⟨some 0, 1⟩ 0 none hentry (by decide +kernel)
    exact ⟨out, hs, hrun, hjobs, by rw [hget, if_pos rfl]⟩
  · obtain ⟨h, hmem, hone, -, hfound⟩ := hfinds 0 (by decide +kernel)
    have hsearched : ∀ x ∈ search.during,
        (x.world.registry 0).entries = [(⟨1, 1⟩, ⟨some 0, 1⟩)] := by decide +kernel
    rw [hhashings, List.cons.injEq, Hashing.mk.injEq] at hone
    obtain ⟨⟨-, hout, htarget⟩, -⟩ := hone
    obtain ⟨id?, hanswer, hiff⟩ := hfound 2 hout.symm htarget.symm
    -- no entry has the hash that is given now
    have hnone : id? = none := by
      refine Option.eq_none_iff_forall_not_mem.2 fun id hid => ?_
      have hthere : (id, ⟨some 0, 2⟩) ∈ (h.world.registry 0).entries :=
        SlotTable.mem_entries.2 ((hiff id).1 hid)
      simp [hsearched h hmem] at hthere
    rw [hanswer, hnone]
  · obtain ⟨before, e, d, after, hplace, hleft, -⟩ := hweeds
    refine ⟨before, e, d, after, hplace, ?_⟩
    rw [hleft, if_pos (by decide +kernel)]

end Machine

end ListenerRegistry
