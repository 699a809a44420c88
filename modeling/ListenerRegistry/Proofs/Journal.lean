import ListenerRegistry.Proofs.Dealings
import ListenerRegistry.Proofs.Past

/-!
# What is written in the journal

An operation on a registry writes the calls that it makes on the host, and it logs what it
does to the registry. It makes its calls before it touches the registry, or when it releases
handles after that; while it is at the registry, it only logs.
-/

namespace ListenerRegistry

namespace Event

/-- The event is a call of the library on the host. -/
def isCall : Event → Bool
  | incref _ | decref _ | hash _ => true
  | _ => false

/-- The call that acquires the reference of a handle; none for null. -/
def acquiring (h : Handle) : List Event := h.elim [] fun o => [incref o]

/-- The call that releases the reference of a handle; none for null. -/
def releasing (h : Handle) : List Event := h.elim [] fun o => [decref o]

/-- The call that asks for the hash of an object; none for null. -/
def hashing (h : Handle) : List Event := h.elim [] fun o => [hash o]

/-- The event of collecting an object, if there is one to collect. -/
def collecting (o? : Option ObjectId) : List Event := o?.elim [] fun o => [collect o]

@[simp] theorem acquiring_none : acquiring none = [] := rfl

@[simp] theorem releasing_none : releasing none = [] := rfl

theorem filter_acquiring (h : Handle) : (acquiring h).filter isCall = acquiring h := by
  cases h <;> rfl

theorem filter_releasing (h : Handle) : (releasing h).filter isCall = releasing h := by
  cases h <;> rfl

theorem reverse_acquiring (h : Handle) : (acquiring h).reverse = acquiring h := by
  cases h <;> rfl

theorem reverse_releasing (h : Handle) : (releasing h).reverse = releasing h := by
  cases h <;> rfl

end Event

namespace World

variable (w : World)

/-! ## Acquiring and releasing -/

/-- Releases the reference of a handle; nothing for null. -/
def dispose : Handle → World
  | none => w
  | some o => w.relinquish o

/-- The object of which a handle has the last reference. -/
def last? (h : Handle) : Option ObjectId :=
  h.filter fun o => (w.adjust o (-1)).count o = 0

@[simp] theorem last?_none : w.last? none = none := rfl

theorem last?_eq_some {h : Handle} {o : ObjectId} :
    w.last? h = some o ↔ h = some o ∧ (w.adjust o (-1)).count o = 0 := by
  simp [last?, Option.filter_eq_some_iff]

theorem journal_acquire (h : Handle) : (w.acquire h).journal = Event.acquiring h ++ w.journal := by
  cases h <;> rfl

theorem journal_dispose (h : Handle) :
    (w.dispose h).journal = Event.collecting (w.last? h) ++ (Event.releasing h ++ w.journal) := by
  cases h with
  | none => rfl
  | some o =>
    have hcount : ((w.adjust o (-1)).emit (.decref o)).count o = (w.adjust o (-1)).count o := rfl
    simp only [dispose, relinquish, last?, hcount]
    by_cases hzero : (w.adjust o (-1)).count o = 0
    · rw [if_pos hzero, Option.filter_some_pos (by simpa using hzero)]
      rfl
    · rw [if_neg hzero, Option.filter_some_neg (by simpa using hzero)]
      rfl

theorem journal_saveId (save : Option Nat) (id : ListenerId) :
    (w.saveId save id).journal = w.journal := by
  cases save <;> rfl

variable {w} {w' : World}

theorem journal_borrow? {target : Handle} (h : w.borrow? target = some w') :
    w'.journal = Event.acquiring target ++ w.journal := by
  cases target with
  | none =>
    cases h
    rfl
  | some o =>
    simp only [borrow?] at h
    split at h <;> cases h
    rfl

/-- The same world, in which some more has happened. -/
def noting (w : World) (new : List Event) : World := { w with journal := new ++ w.journal }

@[simp] theorem visible_noting (w : World) (new : List Event) :
    (w.noting new).visible = w.visible := rfl

theorem noting_noting (w : World) (new newer : List Event) :
    (w.noting new).noting newer = w.noting (newer ++ new) := by
  simp [noting]

/-- The events since a world are those that its journal does not have. -/
theorem eventsSince_of_append {new : List Event} (h : w'.journal = new ++ w.journal) :
    eventsSince w w' = new.reverse := by
  rw [eventsSince, h, List.length_append, Nat.add_sub_cancel, List.take_left']
  rfl

/-! ## Calls -/

variable (w) in
/-- The calls on the host so far, newest first. -/
def calls : List Event := w.journal.filter Event.isCall

theorem calls_of_journal {new : List Event} (h : w'.journal = new ++ w.journal) :
    w'.calls = new.filter Event.isCall ++ w.calls := by
  rw [calls, h, List.filter_append]
  rfl

/-- Logging is no call. -/
theorem calls_of_logs {logs : List LogMessage} (h : w'.journal = logs.map .log ++ w.journal) :
    w'.calls = w.calls := by
  rw [calls_of_journal h, List.filter_map, List.filter_eq_nil_iff.2 (by simp [Event.isCall])]
  rfl

end World

/-! ## What jobs write -/

/-- Releasing a handle calls the finalizer of the object of which it has the last reference. -/
theorem Job.run_release (w : World) (h : Handle) :
    (release h).run w =
      .ok { world := w.dispose h, call := (w.last? h).map fun o => ⟨.collect, o⟩ } := by
  cases h with
  | none => rfl
  | some o =>
    have hcount : ((w.adjust o (-1)).emit (.decref o)).count o = (w.adjust o (-1)).count o := rfl
    simp only [run, World.dispose, World.relinquish, World.last?, hcount]
    by_cases hzero : (w.adjust o (-1)).count o = 0
    · rw [if_pos hzero, if_pos hzero, Option.filter_some_pos (by simpa using hzero)]
      rfl
    · rw [if_neg hzero, if_neg hzero, Option.filter_some_neg (by simpa using hzero)]
      rfl

namespace RegistryOp

variable {w : World} {out : Outcome}

/-- Storing a listener is logged. -/
theorem journal_register {s : Nat} {k : Key} {save : Option Nat}
    (h : register w s k save = .ok out) : ∃ id? r, (w.registry s).register k = .ok (id?, r) ∧
      out.world.objects = w.objects ∧ out.world.journal =
        (id?.map fun id => .stored (w.address k.handle) id).toList.map .log ++ w.journal := by
  simp only [register, bind, Except.bind] at h
  split at h
  · cases h
  · rename_i v hv
    obtain ⟨id?, r⟩ := v
    refine ⟨id?, r, hv, ?_⟩
    cases id? with
    | none =>
      cases h
      exact ⟨rfl, rfl⟩
    | some id =>
      cases h
      cases save <;> exact ⟨rfl, rfl⟩

/-- Unlinking an entry is logged. -/
theorem journal_unlink {s : Nat} {id : ListenerId} {dest : Option Nat} {jobs : Handle → List Job}
    (h : unlink w s id dest jobs = .ok out) : ∃ found r, (w.registry s).unlink id = .ok (found, r) ∧
      out.world.objects = w.objects ∧ out.world.journal =
        (found.map fun k => .removed (w.address k.handle) id).toList.map .log ++ w.journal := by
  simp only [unlink, bind, Except.bind] at h
  split at h
  · cases h
  · rename_i v hv
    obtain ⟨found, r⟩ := v
    refine ⟨found, r, hv, ?_⟩
    cases found with
    | none =>
      cases h
      exact ⟨rfl, rfl⟩
    | some k =>
      cases h
      cases dest <;> exact ⟨rfl, rfl⟩

/-- What is logged about entries that are removed. -/
def removals (w : World) (removed : List (ListenerId × Key)) : List LogMessage :=
  removed.map fun x => .removed (w.address x.2.handle) x.1

theorem logRemoved_eq (w : World) (removed : List (ListenerId × Key)) :
    logRemoved w removed = w.noting ((removals w removed).reverse.map .log) := by
  induction removed generalizing w with
  | nil => rfl
  | cons x removed ih =>
    refine (ih (w.log (.removed (w.address x.2.handle) x.1))).trans ?_
    simp only [removals, List.map_cons, List.reverse_cons, List.map_append]
    exact w.noting_noting [.log (.removed (w.address x.2.handle) x.1)] _

/-- What is logged about several entries that are removed, and about their number. -/
def pruneLog (w : World) (removed : List (ListenerId × Key)) (total : Nat) : List LogMessage :=
  (if 0 < removed.length then [.pruned removed.length total] else []) ++ (removals w removed).reverse

/-- Unlinking several entries is logged, and the handles are released next. -/
theorem prune_of_prune {sc : Screening} {removed : List (ListenerId × Key)} {r : Registry}
    (h : (w.registry sc.registry).prune sc.doomed.reverse = .ok (removed, r)) :
    prune w sc = .ok {
      world := (w.setRegistry sc.registry r).noting ((pruneLog w removed sc.total).map .log)
      jobs := removed.map (fun x => .release x.2.handle) ++ [.answer (.count removed.length)] } := by
  have hlogs : logRemoved (w.setRegistry sc.registry r) removed =
      (w.setRegistry sc.registry r).noting ((removals w removed).reverse.map .log) :=
    logRemoved_eq _ _
  simp only [prune, h, bind, Except.bind, pure, Except.pure, hlogs]
  by_cases hsome : 0 < removed.length
  · simp only [if_pos hsome, pruneLog, List.map_append, ← World.noting_noting]
    rfl
  · simp only [if_neg hsome, pruneLog, List.nil_append]

theorem world_prune {sc : Screening} (h : prune w sc = .ok out) :
    ∃ removed r, (w.registry sc.registry).prune sc.doomed.reverse = .ok (removed, r) ∧
      out.world =
        (w.setRegistry sc.registry r).noting ((pruneLog w removed sc.total).map .log) := by
  cases hprune : (w.registry sc.registry).prune sc.doomed.reverse with
  | error f =>
    simp only [prune, hprune, bind, Except.bind] at h
    cases h
  | ok v =>
    rw [prune_of_prune hprune] at h
    cases h
    exact ⟨_, _, rfl, rfl⟩

/-- A visit to an entry is written down, and that is all. -/
theorem world_screen {sc : Screening} (hpending : sc.pending ≠ []) (h : screen w sc = .ok out) :
    ∃ p : Handle, out.world = p.elim w fun o => w.emit (.keep o) := by
  obtain ⟨i, pending, hcons⟩ := List.exists_cons_of_ne_nil hpending
  simp only [screen, hcons] at h
  split at h
  · cases h
    exact ⟨none, rfl⟩
  · rename_i id k _
    split at h
    · cases h
    · split at h <;> cases h <;> exact ⟨k.handle, rfl⟩

end RegistryOp

end ListenerRegistry
