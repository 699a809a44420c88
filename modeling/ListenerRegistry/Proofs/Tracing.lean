import ListenerRegistry.Proofs.Directory
import ListenerRegistry.Proofs.Journal
import ListenerRegistry.Proofs.Serialization

/-!
# The trace tells the contents

A listener that is stored and a listener that is removed are traced, with the address of
the object and the id. Between the change of a registry and its message there is no room for
foreign code. So whoever replays the messages knows what is in the registry, at any time.
-/

namespace ListenerRegistry

/-- The event is a message that a listener was stored or removed. -/
def Event.isTrace : Event → Bool
  | log (.stored _ _) | log (.removed _ _) => true
  | _ => false

/-! ## What has been traced -/

namespace World

variable {w w' : World}

/-- The messages about listeners, newest first, and the addresses of the objects. -/
def imprint (w : World) : List Event × List UInt64 :=
  (w.journal.filter Event.isTrace, w.objects.map ForeignObject.address)

theorem address_of_imprint (haddresses : w'.imprint.2 = w.imprint.2) : w'.address = w.address := by
  replace haddresses : w'.objects.map ForeignObject.address =
      w.objects.map ForeignObject.address := haddresses
  funext p
  cases p with
  | none => rfl
  | some o =>
    have hmap (x : Option ForeignObject) :
        x.elim 0 ForeignObject.address = (x.map ForeignObject.address).getD 0 := by
      cases x <;> rfl
    rw [address, address, hmap, hmap, ← List.getElem?_map, ← List.getElem?_map, haddresses]

theorem imprint_emit {e : Event} (he : e.isTrace = false) : (w.emit e).imprint = w.imprint := by
  unfold imprint emit
  rw [List.filter_cons_of_neg (by simp [he])]

/-- What is logged is traced, as far as it is about listeners. -/
theorem imprint_of_logs {logs : List LogMessage} (hobjects : w'.objects = w.objects)
    (hjournal : w'.journal = logs.map .log ++ w.journal) :
    w'.imprint = ((logs.map .log).filter Event.isTrace ++ w.imprint.1, w.imprint.2) := by
  unfold imprint
  rw [hobjects, hjournal, List.filter_append]

theorem imprint_modifyObject (o : ObjectId) (f : ForeignObject → ForeignObject)
    (hf : ∀ x, (f x).address = x.address) : (w.modifyObject o f).imprint = w.imprint := by
  unfold imprint modifyObject
  refine congrArg _ (List.ext_getElem? fun i => ?_)
  rw [List.getElem?_map, List.getElem?_map, List.getElem?_modify]
  cases w.objects[i]? with
  | none => rfl
  | some x =>
    by_cases ho : o = i
    · simp [ho, hf]
    · simp [ho]

@[simp] theorem imprint_adjust (o : ObjectId) (d : Int) : (w.adjust o d).imprint = w.imprint :=
  imprint_modifyObject o _ fun _ => rfl

@[simp] theorem imprint_setCustody (o : ObjectId) (c : Custody) :
    (w.setCustody o c).imprint = w.imprint :=
  imprint_modifyObject o _ fun _ => rfl

@[simp] theorem imprint_countHash (o : ObjectId) :
    (w.modifyObject o ForeignObject.countHash).imprint = w.imprint :=
  imprint_modifyObject o _ fun _ => rfl

@[simp] theorem imprint_transfer (t : Transfer) (o : ObjectId) :
    (w.transfer t o).imprint = w.imprint :=
  imprint_emit rfl

@[simp] theorem imprint_acquire (h : Handle) : (w.acquire h).imprint = w.imprint := by
  cases h with
  | none => rfl
  | some o => exact (imprint_emit rfl).trans (imprint_adjust o 1)

@[simp] theorem imprint_dispose (h : Handle) : (w.dispose h).imprint = w.imprint := by
  cases h with
  | none => rfl
  | some o =>
    have hdecref : ((w.adjust o (-1)).emit (.decref o)).imprint = w.imprint :=
      (imprint_emit rfl).trans (imprint_adjust o (-1))
    simp only [dispose, relinquish]
    split
    · exact (imprint_emit rfl).trans hdecref
    · exact hdecref

@[simp] theorem imprint_abandon (h : Handle) : (w.abandon h).imprint = w.imprint := by
  cases h with
  | none => rfl
  | some o => exact imprint_transfer _ o

@[simp] theorem imprint_setHandle (r : Nat) (h : Handle) : (w.setHandle r h).imprint = w.imprint :=
  rfl

@[simp] theorem imprint_setKey (k : Nat) (key : Option Key) :
    (w.setKey k key).imprint = w.imprint := rfl

@[simp] theorem imprint_setRegistry (s : Nat) (r : Registry) :
    (w.setRegistry s r).imprint = w.imprint := rfl

theorem imprint_of_borrow? {target : Handle} (h : w.borrow? target = some w') :
    w'.imprint = w.imprint := by
  cases target with
  | none =>
    cases h
    rfl
  | some o =>
    simp only [borrow?] at h
    split at h <;> cases h
    exact imprint_acquire (some o)

theorem imprint_of_spend? {o : ObjectId} (h : w.spend? o = some w') : w'.imprint = w.imprint := by
  simp only [spend?] at h
  split at h
  · obtain ⟨c, -, rfl⟩ := Option.map_eq_some_iff.1 h
    exact imprint_setCustody o c
  · cases h

theorem imprint_of_adopt? {target : Handle} (h : w.adopt? target = some w') :
    w'.imprint = w.imprint := by
  cases target with
  | none =>
    cases h
    rfl
  | some o =>
    obtain ⟨v, hv, rfl⟩ := Option.map_eq_some_iff.1 h
    exact (imprint_transfer _ o).trans (imprint_of_spend? hv)

theorem imprint_of_obtain? {source : Source} {h : Handle} (ho : w.obtain? source = some (h, w')) :
    w'.imprint = w.imprint := by
  cases source with
  | fresh target =>
    obtain ⟨v, hv, he⟩ := Option.map_eq_some_iff.1 ho
    cases he
    exact imprint_of_borrow? hv
  | copied r =>
    cases ho
    exact imprint_acquire _
  | taken r =>
    cases ho
    rfl

theorem imprint_of_grip? {probe : Probe} {grip : Grip} (h : w.grip? probe = some (grip, w')) :
    w'.imprint = w.imprint := by
  cases probe with
  | fresh target =>
    obtain ⟨v, hv, he⟩ := Option.map_eq_some_iff.1 h
    cases he
    exact imprint_of_borrow? hv
  | register r =>
    cases h
    rfl

end World

/-! ## Jobs that trace nothing -/

section

open World

variable {w : World} {out : Outcome}

theorem HandleOp.imprint_run (op : HandleOp) : (op.run w).world.imprint = w.imprint := by
  cases op with
  | borrow h target =>
    simp only [run]
    split
    · rename_i w' hw
      show w'.imprint = w.imprint
      exact imprint_of_borrow? hw
    · rfl
  | adopt h target =>
    simp only [run]
    split
    · rename_i w' hw
      show w'.imprint = w.imprint
      exact imprint_of_adopt? hw
    · rfl
  | cloneFrom h src =>
    simp only [run, overwrite]
    split <;> simp [Outcome.put]
  | surrender h =>
    simp only [run]
    split <;> simp [Outcome.say]
  | hash probe =>
    simp only [run]
    split
    · rename_i grip w' hw
      exact imprint_of_grip? hw
    · rfl
  | _ => simp [run, copy, copyOver, Outcome.put, Outcome.say]

theorem HostOp.imprint_run (op : HostOp) : (op.run w).world.imprint = w.imprint := by
  cases op with
  | decref o =>
    simp only [run]
    split
    · rename_i w' hw
      exact (imprint_transfer _ o).trans (imprint_of_spend? hw)
    · rfl
  | recover h keep =>
    simp only [run]
    split
    · rfl
    · rename_i o _
      have hsame : ((w.acquire (some o)).transfer .surrendered o).imprint = w.imprint := by simp
      split
      · exact hsame
      · exact (imprint_transfer _ o).trans hsame
  | dropRecovered =>
    simp only [run]
    split
    · rfl
    · rename_i o recovered _
      exact imprint_transfer _ o
  | incref o =>
    simp only [run]
    split <;> simp [Outcome.say, takeOne]
  | track h o | share h o | give h o | dropOwner o =>
    simp only [run]
    split <;> simp [Outcome.say, Outcome.put, letGo, takeOne]
  | retire o | setHashing o rule => exact imprint_modifyObject o _ fun _ => rfl

theorem KeyOp.imprint_run (op : KeyOp) : (op.run w).world.imprint = w.imprint := by
  cases op with
  | make k source =>
    simp only [run]
    split
    · rename_i h w' hw
      exact imprint_of_obtain? hw
    · rfl
  | clone k src | unwrap k h | copyHandle k h | summary k layout =>
    simp only [run]
    split <;> simp [Outcome.say, Outcome.put, Outcome.putKey]
  | compare a b =>
    simp only [run]
    split <;> rfl
  | drop k => rfl

theorem KeySetOp.imprint_run (op : KeySetOp) : (op.run w).world.imprint = w.imprint := by
  cases op <;> simp only [run] <;> (repeat' split) <;> rfl

theorem RegistryOp.imprint_run {op : RegistryOp} (h : op.run w = .ok out)
    (hact : op.action? w = none) : out.world.imprint = w.imprint := by
  cases op with
  | insert s source save =>
    simp only [run] at h
    split at h
    · cases h
      rfl
    · rename_i u hw
      cases h
      exact imprint_of_obtain? hw
    · rename_i o u hw
      cases h
      exact imprint_of_obtain? hw
  | insertKey s k save =>
    simp only [run] at h
    split at h
    · cases h
      rfl
    · rename_i key hkey
      split at h
      · cases h
        rfl
      · rename_i o ho
        simp [action?, hkey, ho] at hact
  | find s probe save | contains s probe | remove s probe dest =>
    simp only [run] at h
    split at h
    · cases h
      rfl
    · rename_i grip u hw
      split at h <;> cases h <;> exact imprint_of_grip? hw
  | get s n | removeId s n dest =>
    have hid : w.savedId? n = none := Option.map_eq_none_iff.1 hact
    simp only [run, hid] at h
    cases h
    rfl
  | sameId i j =>
    simp only [run] at h
    split at h <;> cases h <;> rfl
  | retain s keep =>
    cases h
    rfl
  | clear | discard | size | entries => cases hact

theorem HashUse.imprint_resume {use : HashUse} {outcome : HashOutcome}
    (h : use.resume w outcome = .ok out) (hact : use.action? w outcome = none) :
    out.world.imprint = w.imprint := by
  cases use with
  | insert s p save | find s probe save | contains s probe | remove s probe dest =>
    cases outcome with
    | error e =>
      cases h
      rfl
    | ok hash => cases hact
  | makeKey k p =>
    cases outcome <;> cases h <;> rfl
  | answer | compareWith | compareTo | screen =>
    cases h
    rfl

/-- The job is not about to trace anything. -/
def Job.Untraced (t : Job) : Prop := ∀ m, t = .log m → ∃ e, m = .rejecting e

/-- **A job without an action traces nothing.** -/
theorem Job.imprint_run {t : Job} (h : t.run w = .ok out) (hact : t.action? w = none)
    (ht : t.Untraced) : out.world.imprint = w.imprint := by
  cases t with
  | perform step =>
    cases step with
    | op op =>
      cases op with
      | registry op => exact RegistryOp.imprint_run h hact
      | handle op =>
        cases h
        exact op.imprint_run
      | host op =>
        cases h
        exact op.imprint_run
      | key op =>
        cases h
        exact op.imprint_run
      | keySet op =>
        cases h
        exact op.imprint_run
    | batch steps => cases steps <;> cases h <;> rfl
  | release p =>
    obtain rfl := Except.ok.inj ((run_release w p).symm.trans h)
    exact imprint_dispose p
  | install r new =>
    cases h
    exact imprint_abandon _
  | ask use =>
    simp only [run] at h
    split at h
    · rename_i hnull
      rw [action?, if_pos hnull] at hact
      exact HashUse.imprint_resume h hact
    · cases h
      exact imprint_emit rfl
  | hashed o use =>
    have hact' : use.action? (w.modifyObject o ForeignObject.countHash) (w.hashOutcome o) = none := by
      rw [← hact, action?, HashUse.action?_modifyObject]
    exact (HashUse.imprint_resume h hact').trans (imprint_countHash o)
  | screen sc =>
    have hpending : sc.pending ≠ [] := by
      intro hnil
      simp [action?, hnil] at hact
    obtain ⟨p, hworld⟩ := RegistryOp.world_screen hpending h
    rw [hworld]
    cases p with
    | none => rfl
    | some o => exact imprint_emit rfl
  | log m =>
    obtain ⟨e, rfl⟩ := ht m rfl
    cases h
    exact imprint_emit rfl
  | record | leave =>
    cases h
    exact imprint_emit rfl
  | answer | answerCount =>
    cases h
    rfl
  | gather steps answers => cases steps <;> cases h <;> rfl

/-! ## Jobs with an action -/

/-- The messages that go with an action, in order. -/
def Roster.notes (address : Handle → UInt64) (m : Roster) : Action → List LogMessage
  | .insert k => ((add m k).1.map fun id => .stored (address k.handle) id).toList
  | .withdraw k => ((idOf? m k).bind fun id =>
      (m.get? id).map fun k => .removed (address k.handle) id).toList
  | .removeId id => ((m.get? id).map fun k => .removed (address k.handle) id).toList
  | .strike ids => (strike m ids).1.map fun x => .removed (address x.2.handle) x.1
  | _ => []

section

variable {address : Handle → UInt64} {m : Roster} {id : ListenerId} {k : Key}

theorem Roster.notes_insert :
    notes address m (.insert k) = ((add m k).1.map fun id => .stored (address k.handle) id).toList :=
  rfl

theorem Roster.notes_removeId :
    notes address m (.removeId id) =
      ((m.get? id).map fun k => .removed (address k.handle) id).toList := rfl

theorem Roster.notes_withdraw :
    notes address m (.withdraw k) = ((idOf? m k).map fun id =>
      notes address m (.removeId id)).getD [] := by
  show ((idOf? m k).bind _).toList = _
  cases idOf? m k <;> rfl

/-- The first entry is struck before the rest. -/
theorem Roster.notes_strike_cons {ids : List ListenerId} :
    notes address m (.strike (id :: ids)) =
      notes address m (.removeId id) ++ notes address (take m id).2 (.strike ids) := by
  show List.map _ (((take m id).1.map fun k => (id, k)).toList ++ _) = _
  rw [List.map_append, take_fst, notes_removeId]
  cases m.get? id <;> rfl

end

/-- In the second world, the messages have been traced since the first one. -/
def World.Traces (w w' : World) (logs : List LogMessage) : Prop :=
  w'.imprint = (logs.reverse.map .log ++ w.imprint.1, w.imprint.2)

theorem World.traces_nil {w' : World} (h : w'.imprint = w.imprint) : w.Traces w' [] := h

/-- One message about a listener, or none. -/
theorem World.traces_toList {w' : World} {log? : Option LogMessage}
    (htrace : ∀ m, log? = some m → (Event.log m).isTrace = true) (hobjects : w'.objects = w.objects)
    (hjournal : w'.journal = log?.toList.map .log ++ w.journal) : w.Traces w' log?.toList := by
  rw [World.Traces, World.imprint_of_logs hobjects hjournal]
  cases log? with
  | none => rfl
  | some m =>
    have hm : [Event.log m].filter Event.isTrace = [Event.log m] :=
      List.filter_cons_of_pos (htrace m rfl)
    exact congrArg (fun x => (x ++ w.imprint.1, w.imprint.2)) hm

theorem RegistryOp.traces_register {s : Nat} {k : Key} {save : Option Nat}
    (hw : (w.registry s).Sound) (h : register w s k save = .ok out) :
    w.Traces out.world (Roster.notes w.address (w.registry s).slots (.insert k)) := by
  obtain ⟨id?, r, hregister, hobjects, hjournal⟩ := journal_register h
  obtain ⟨r', hregister', -⟩ := Registry.register_eq hw k
  obtain ⟨rfl, -⟩ := Prod.mk.inj (Except.ok.inj (hregister.symm.trans hregister'))
  refine World.traces_toList ?_ hobjects hjournal
  intro m hm
  obtain ⟨id, -, rfl⟩ := Option.map_eq_some_iff.1 hm
  rfl

theorem RegistryOp.traces_unlink {s : Nat} {id : ListenerId} {dest : Option Nat}
    {jobs : Handle → List Job} (hw : (w.registry s).Sound)
    (h : unlink w s id dest jobs = .ok out) :
    w.Traces out.world (Roster.notes w.address (w.registry s).slots (.removeId id)) := by
  obtain ⟨found, r, hunlink, hobjects, hjournal⟩ := journal_unlink h
  obtain ⟨r', hunlink', -⟩ := Registry.unlink_eq hw id
  rw [Roster.take_fst] at hunlink'
  obtain ⟨rfl, -⟩ := Prod.mk.inj (Except.ok.inj (hunlink.symm.trans hunlink'))
  refine World.traces_toList ?_ hobjects hjournal
  intro m hm
  obtain ⟨k, -, rfl⟩ := Option.map_eq_some_iff.1 hm
  rfl

theorem RegistryOp.traces_prune {sc : Screening} (hw : (w.registry sc.registry).Sound)
    (h : prune w sc = .ok out) : w.Traces out.world
      (Roster.notes w.address (w.registry sc.registry).slots (.strike sc.doomed.reverse)) := by
  obtain ⟨removed, r, hprune, hworld⟩ := world_prune h
  obtain ⟨r', hprune', -⟩ := Registry.prune_eq hw sc.doomed.reverse
  obtain ⟨rfl, -⟩ := Prod.mk.inj (Except.ok.inj (hprune.symm.trans hprune'))
  have hobjects : out.world.objects = w.objects := by
    rw [hworld]
    rfl
  have hjournal : out.world.journal = _ ++ w.journal :=
    (congrArg World.journal hworld).trans rfl
  rw [World.Traces, World.imprint_of_logs hobjects hjournal, pruneLog, List.map_append,
    List.filter_append]
  -- the number of entries that were pruned is worth more than a trace
  have hnumber (n total : Nat) :
      ((if 0 < n then [LogMessage.pruned n total] else []).map Event.log).filter Event.isTrace =
        [] := by
    split <;> rfl
  have hremovals : ∀ x ∈ (removals w (Roster.strike (w.registry sc.registry).slots
      sc.doomed.reverse).1).reverse.map Event.log, x.isTrace = true := by
    intro x hx
    obtain ⟨m, hm, rfl⟩ := List.mem_map.1 hx
    obtain ⟨y, -, rfl⟩ := List.mem_map.1 (List.mem_reverse.1 hm)
    rfl
  rw [hnumber, List.filter_eq_self.2 hremovals]
  rfl

theorem RegistryOp.traces_run {op : RegistryOp} (hw : w.Consistent) (h : op.run w = .ok out)
    {s : Nat} {action : Action} (hact : op.action? w = some (s, action)) :
    w.Traces out.world (Roster.notes w.address (w.registry s).slots action) := by
  cases op with
  | insertKey s' k save =>
    obtain ⟨key, hkey, hact⟩ := Option.bind_eq_some_iff.1 hact
    split at hact
    · cases hact
    · rename_i hnull
      cases hact
      obtain ⟨o, ho⟩ := Option.ne_none_iff_exists'.1 hnull
      have hrun : register (w.setKey k none) s key save = .ok out := by
        simpa only [run, hkey, ho] using h
      have htraces : (w.setKey k none).Traces out.world _ := traces_register (hw s) hrun
      exact htraces
  | get s' n =>
    obtain ⟨id, hid, hact⟩ := Option.map_eq_some_iff.1 hact
    cases hact
    simp only [run, hid] at h
    cases h
    exact World.traces_nil rfl
  | removeId s' n dest =>
    obtain ⟨id, hid, hact⟩ := Option.map_eq_some_iff.1 hact
    cases hact
    simp only [run, hid] at h
    exact traces_unlink (hw s) h
  | clear s' =>
    cases hact
    simp only [run, bind, Except.bind] at h
    split at h <;> cases h
    exact World.traces_nil rfl
  | discard s' | size s' | entries s' =>
    cases hact
    cases h
    exact World.traces_nil rfl
  | insert | find | contains | remove | sameId | retain => cases hact

theorem HashUse.traces_resume {use : HashUse} {outcome : HashOutcome} (hw : w.Consistent)
    (h : use.resume w outcome = .ok out) {s : Nat} {action : Action}
    (hact : use.action? w outcome = some (s, action)) :
    w.Traces out.world (Roster.notes w.address (w.registry s).slots action) := by
  cases outcome with
  | error e => cases use <;> cases hact
  | ok hash =>
    cases use with
    | insert s' p save =>
      cases hact
      exact RegistryOp.traces_register (hw s) h
    | find s' probe save =>
      cases hact
      simp only [resume, Registry.locate_eq (hw s), bind, Except.bind] at h
      cases h
      apply World.traces_nil
      cases Roster.idOf? (w.registry s).slots ⟨probe.handle w, hash⟩ with
      | none => rfl
      | some id => cases save <;> rfl
    | contains s' probe =>
      cases hact
      simp only [resume, Registry.locate_eq (hw s), bind, Except.bind] at h
      cases h
      exact World.traces_nil rfl
    | remove s' probe dest =>
      cases hact
      simp only [resume, Registry.locate_eq (hw s), bind, Except.bind] at h
      rw [Roster.notes]
      rcases hid : Roster.idOf? (w.registry s).slots ⟨probe.handle w, hash⟩ with _ | id
      · rw [hid] at h
        cases h
        exact World.traces_nil rfl
      · rw [hid] at h
        have hsame : (w.setRegistry s (w.registry s)).registry s = w.registry s :=
          World.registry_setRegistry_self ..
        have hunlink := RegistryOp.traces_unlink (by rw [hsame]; exact hw s) h
        rw [hsame] at hunlink
        exact hunlink
    | answer | compareWith | compareTo | makeKey | screen => cases hact

/-- **A job with an action traces what the action does.** -/
theorem Job.traces_run {t : Job} (hw : w.Consistent) (h : t.run w = .ok out) {s : Nat}
    {action : Action} (hact : t.action? w = some (s, action)) :
    w.Traces out.world (Roster.notes w.address (w.registry s).slots action) := by
  cases t with
  | perform step =>
    cases step with
    | op op =>
      cases op with
      | registry op => exact RegistryOp.traces_run hw h hact
      | handle | host | key | keySet => cases hact
    | batch => cases hact
  | ask use =>
    simp only [action?] at hact
    split at hact
    · rename_i hnull
      simp only [run, hnull] at h
      exact HashUse.traces_resume hw h hact
    · cases hact
  | hashed o use =>
    have hact' : use.action? (w.modifyObject o ForeignObject.countHash) (w.hashOutcome o) =
        some (s, action) := by
      rw [← hact, action?, HashUse.action?_modifyObject]
    have htraces := HashUse.traces_resume (w := w.modifyObject o ForeignObject.countHash) hw h hact'
    have himprint := World.imprint_countHash (w := w) o
    rw [World.Traces, himprint, World.address_of_imprint (congrArg Prod.snd himprint)] at htraces
    exact htraces
  | screen sc =>
    simp only [action?] at hact
    split at hact
    · rename_i hpending
      cases hact
      have hprune : RegistryOp.prune w sc = .ok out := by
        simpa only [run, RegistryOp.screen, hpending] using h
      exact RegistryOp.traces_prune (hw sc.registry) hprune
    · cases hact
  | release | install | log | answer | answerCount | record | gather | leave => cases hact

end

/-! ## Replaying the trace -/

/-- What the ids stand for: addresses of objects. -/
abbrev Chart := ListenerId → Option UInt64

namespace Journal

/-- The chart that comes of the messages about listeners in a journal, in which the newest
event comes first. -/
def chart : List Event → Chart
  | [] => fun _ => none
  | .log (.stored address id) :: j => Function.update (chart j) id (some address)
  | .log (.removed _ id) :: j => Function.update (chart j) id none
  | _ :: j => chart j

/-- Whenever a listener was stored, its id stood for nothing. Whenever one was removed, its id
stood for the address that the message gives. -/
def Faithful : List Event → Prop
  | [] => True
  | .log (.stored _ id) :: j => chart j id = none ∧ Faithful j
  | .log (.removed address id) :: j => chart j id = some address ∧ Faithful j
  | _ :: j => Faithful j

/-- Only the messages about listeners matter. -/
theorem replay_filter (j : List Event) : chart (j.filter Event.isTrace) = chart j ∧
    (Faithful (j.filter Event.isTrace) ↔ Faithful j) := by
  induction j with
  | nil => exact ⟨rfl, Iff.rfl⟩
  | cons e j ih =>
    obtain ⟨hchart, hfaithful⟩ := ih
    cases e with
    | log m =>
      cases m with
      | stored address id | removed address id =>
        rw [List.filter_cons_of_pos rfl]
        simp only [chart, Faithful, hchart, hfaithful, and_self]
      | _ =>
        rw [List.filter_cons_of_neg (by simp [Event.isTrace])]
        exact ⟨hchart, hfaithful⟩
    | _ =>
      rw [List.filter_cons_of_neg (by simp [Event.isTrace])]
      exact ⟨hchart, hfaithful⟩

/-- The journal is faithful and comes to the chart. -/
def Tells (j : List Event) (F : Chart) : Prop := chart j = F ∧ Faithful j

end Journal

namespace Roster

variable {address : Handle → UInt64} {m : Roster} {j : List Event}

/-- Which address each id of a roster stands for. -/
def chart (address : Handle → UInt64) (m : Roster) : Chart :=
  fun id => (m.get? id).map fun k => address k.handle

theorem tells_add (hm : m.Sound) (hj : Journal.Tells j (chart address m)) (k : Key) :
    Journal.Tells ((notes address m (.insert k)).reverse.map .log ++ j)
      (chart address (add m k).2) := by
  obtain ⟨hchart, hfaithful⟩ := hj
  have hget := get?_add hm k
  rw [notes_insert]
  cases hadd : (add m k).1 with
  | none =>
    refine ⟨?_, hfaithful⟩
    funext id
    simp only [chart, hget, hadd]
    exact congrFun hchart id
  | some new =>
    have hnew : m.get? new = none := get?_of_add hm hadd
    refine ⟨?_, ?_, hfaithful⟩
    · funext id
      show Function.update (Journal.chart j) new _ id = _
      rw [hchart, Function.update_apply]
      simp only [chart, hget, hadd, Option.some.injEq]
      by_cases hid : id = new
      · simp [hid]
      · simp [hid, Ne.symm hid]
    · exact (congrFun hchart new).trans (by rw [chart, hnew]; rfl)

theorem tells_take (hj : Journal.Tells j (chart address m)) (id : ListenerId) :
    Journal.Tells ((notes address m (.removeId id)).reverse.map .log ++ j)
      (chart address (take m id).2) := by
  obtain ⟨hchart, hfaithful⟩ := hj
  rw [notes_removeId]
  cases hid : m.get? id with
  | none =>
    refine ⟨?_, hfaithful⟩
    funext i
    rw [chart, get?_take]
    split
    · rename_i hi
      rw [hi]
      exact (congrFun hchart id).trans (by rw [chart, hid])
    · exact congrFun hchart i
  | some k =>
    refine ⟨?_, ?_, hfaithful⟩
    · funext i
      show Function.update (Journal.chart j) id none i = _
      rw [hchart, Function.update_apply, chart, chart, get?_take]
      split <;> rfl
    · exact (congrFun hchart id).trans (by rw [chart, hid]; rfl)

theorem tells_strike (ids : List ListenerId) (hj : Journal.Tells j (chart address m)) :
    Journal.Tells ((notes address m (.strike ids)).reverse.map .log ++ j)
      (chart address (strike m ids).2) := by
  induction ids generalizing m j with
  | nil => exact hj
  | cons id ids ih =>
    have hrest := ih (tells_take hj id)
    rw [notes_strike_cons, List.reverse_append, List.map_append, List.append_assoc]
    exact hrest

/-- **The messages of an action tell what it does**, unless it empties the roster at once. -/
theorem tells_apply (hm : m.Sound) (hj : Journal.Tells j (chart address m)) {a : Action}
    (hclear : a ≠ .clear) (hdiscard : a ≠ .discard) :
    Journal.Tells ((notes address m a).reverse.map .log ++ j) (chart address (apply m a).2) := by
  cases a with
  | insert k => exact tells_add hm hj k
  | removeId id => exact tells_take hj id
  | withdraw k =>
    show Journal.Tells _ (chart address (withdraw m k).2)
    rw [notes_withdraw, withdraw]
    cases hid : idOf? m k with
    | none => exact hj
    | some id => exact tells_take hj id
  | strike ids => exact tells_strike ids hj
  | clear => exact absurd rfl hclear
  | discard => exact absurd rfl hdiscard
  | find | get | size | entries => exact hj

end Roster

/-! ## Whole runs -/

/-- Which address each id of the registry `s` stands for. -/
def World.chart (w : World) (s : Nat) : Chart := (w.rosters s).chart w.address

namespace Machine

variable {objects : List ForeignObject} {steps : List Step} {a b m : Machine} {ms : List Machine}
  {s : Nat}

/-- The next turn acts on no registry but `s`, and does not empty it at once. -/
def ActsOn (s : Nat) (m : Machine) : Prop :=
  ∀ x ∈ m.act?, x.registry = s ∧ x.action ≠ .clear ∧ x.action ≠ .discard

/-- No job is about to trace anything. -/
def Untraced (m : Machine) : Prop := ∀ t ∈ m.jobs, t.Untraced

theorem Turn.untraced (h : Turn a b) (hw : a.world.Consistent) (ha : a.Untraced) : b.Untraced := by
  obtain ⟨w, t, rest, rfl, ⟨f, -, rfl⟩ | ⟨t', out, w', above, -, hrun, -, habove, rfl⟩⟩ := h.inv
  · exact ha
  rintro u hu m rfl
  simp only [List.mem_append] at hu
  rcases hu with hu | hu | hu
  · exact (habove _ hu).elim
  · cases Job.leads_run hw hrun _ hu
    exact ⟨_, rfl⟩
  · exact ha _ (List.mem_cons_of_mem _ hu) m rfl

/-- A turn without an action traces nothing. -/
theorem Turn.imprint_of_none (h : Turn a b) (hw : a.world.Consistent) (ha : a.Untraced)
    (hact : a.act? = none) : b.world.imprint = a.world.imprint := by
  obtain ⟨w, t, rest, rfl, ⟨f, -, rfl⟩ | ⟨t', out, w', above, ht', hrun, hw', -, rfl⟩⟩ := h.inv
  · rfl
  have huntraced : t'.Untraced := by
    rcases ht' with rfl | ⟨sc, rule, -, -, rfl⟩
    · exact ha _ List.mem_cons_self
    · rintro m ⟨⟩
  have hsame := Job.imprint_run hrun (action?_of_variant hw rfl hact ht') huntraced
  rcases hw' with rfl | ⟨hook, -, rfl⟩
  · exact hsame
  · exact (World.imprint_emit rfl).trans hsame

/-- **A turn traces what it does** to the registry. -/
theorem Turn.tells (h : Turn a b) (hw : a.world.Consistent) (ha : a.Untraced) (hacts : a.ActsOn s)
    (htells : Journal.Tells a.world.imprint.1 (a.world.chart s)) :
    Journal.Tells b.world.imprint.1 (b.world.chart s) := by
  cases hact : a.act? with
  | none =>
    have himprint := h.imprint_of_none hw ha hact
    rw [himprint, World.chart, World.address_of_imprint (congrArg Prod.snd himprint),
      h.rosters_of_none hw hact]
    exact htells
  | some x =>
    obtain ⟨rfl, hclear, hdiscard⟩ := hacts x hact
    obtain ⟨-, hrosters⟩ := h.rosters_of_act hw hact
    have hroster : b.world.rosters x.registry =
        (Roster.apply (a.world.rosters x.registry) x.action).2 := by
      rw [hrosters]
      exact if_pos rfl
    obtain ⟨w, t, rest, rfl, -⟩ := h.inv
    cases haction : t.action? w with
    | none =>
      rw [act?_of_no_action rfl haction] at hact
      cases hact
    | some sa =>
      obtain ⟨s, action⟩ := sa
      rw [act?_of_action hw rfl haction] at hact
      cases hact
      obtain ⟨out, hrun, rfl⟩ := h.run_of_action hw rfl haction
      have htraces : out.world.imprint = _ := Job.traces_run hw hrun haction
      have haddress : out.world.address = w.address := by
        apply World.address_of_imprint
        rw [htraces]
      rw [World.chart, hroster, haddress, htraces]
      exact Roster.tells_apply (hw s).slots htells hclear hdiscard

/-- **The trace tells the contents.** If a run uses one registry and never empties it at once,
then the messages about listeners that were stored and removed, replayed in order, give at any
time which address each id of the registry stands for. Every listener was stored under an id
that stood for nothing, and removed from an id that stood for its address. -/
theorem traces_tell_contents (h : Run (session objects steps) ms m)
    (hacts : ∀ x ∈ history ms, x.registry = s ∧ x.action ≠ .clear ∧ x.action ≠ .discard) :
    ∀ a ∈ m :: ms, Journal.chart a.world.journal = a.world.chart s ∧
      Journal.Faithful a.world.journal := by
  have hms : ∀ a ∈ ms, a.ActsOn s := by
    intro a ha x hx
    exact hacts x (List.mem_filterMap.2 ⟨a, ha, hx⟩)
  have hstart : Journal.Tells (session objects steps).world.imprint.1
      ((session objects steps).world.chart s) := by
    refine ⟨?_, trivial⟩
    have hempty : (session objects steps).world.rosters s = .empty :=
      congrArg Registry.slots (Bank.read_empty s)
    funext id
    rw [World.chart, hempty, Roster.chart, SlotTable.get?_empty]
    rfl
  have huntraced : (session objects steps).Untraced := by
    rintro t ht m rfl
    obtain ⟨step, -, hstep⟩ := List.mem_map.1 ht
    cases hstep
  obtain ⟨hm, hms⟩ := h.preserves_of
    (P := fun a => a.world.Consistent ∧ a.Untraced ∧
      Journal.Tells a.world.imprint.1 (a.world.chart s))
    (fun a b ha hact hab =>
      ⟨hab.consistent ha.1, hab.untraced ha.1 ha.2.1, hab.tells ha.1 ha.2.1 hact ha.2.2⟩)
    hms ⟨World.consistent_init objects, huntraced, hstart⟩
  intro a ha
  have htells : Journal.Tells a.world.imprint.1 (a.world.chart s) := by
    rcases List.mem_cons.1 ha with rfl | ha
    · exact hm.2.2
    · exact (hms a ha).2.2
  obtain ⟨hchart, hfaithful⟩ := Journal.replay_filter a.world.journal
  exact ⟨hchart.symm.trans htells.1, hfaithful.1 htells.2⟩

/-- The first object is registered inside its own registration, and the second one removed
inside its own removal. The trace tells that the first one is left. -/
theorem traces_tell_contents_in_contest :
    (∀ a ∈ (session meetingObjects contestSteps).turns contest 35 ::
        visited contest 35 (session meetingObjects contestSteps),
      Journal.chart a.world.journal = a.world.chart 0 ∧ Journal.Faithful a.world.journal) ∧
    Journal.chart ((session meetingObjects contestSteps).turns contest 35).world.journal ⟨1, 1⟩ =
      some 0x1000 ∧
    Journal.chart ((session meetingObjects contestSteps).turns contest 35).world.journal ⟨2, 1⟩ =
      none :=
  ⟨traces_tell_contents (run_visited contest 35 _) (by decide +kernel), by decide +kernel,
    by decide +kernel⟩

end Machine

end ListenerRegistry
