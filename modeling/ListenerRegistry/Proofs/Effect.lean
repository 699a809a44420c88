import ListenerRegistry.Proofs.Action
import ListenerRegistry.Proofs.World

/-!
# What a job does to the registries

A job takes its action on one registry, and touches no registry otherwise. When
it takes one, all that is left to do is to release some handles and to answer;
nothing foreign is called on the way.
-/

namespace ListenerRegistry

open World

/-- The outcome of a job that takes an action on registry `s`: the registry is
`r` now, some handles are to be released, and then comes the answer. -/
structure Outcome.Takes (out : Outcome) (w : World) (s : Nat) (r : Registry) (answer : Answer) :
    Prop where
  acted : out.world.registry s = r
  others : ∀ s', s' ≠ s → out.world.registry s' = w.registry s'
  call : out.call = none
  jobs : ∃ hs : List Handle, out.jobs = hs.map .release ++ [.answer answer]

/-- Only the registries matter of the world that an outcome is compared with. -/
theorem Outcome.Takes.of_others {out : Outcome} {w v : World} {s : Nat} {r : Registry}
    {answer : Answer} (h : out.Takes v s r answer)
    (hv : ∀ s', s' ≠ s → v.registry s' = w.registry s') : out.Takes w s r answer :=
  ⟨h.acted, fun s' hs => (h.others s' hs).trans (hv s' hs), h.call, h.jobs⟩

/-! ## Operations that touch no registry -/

theorem HandleOp.stores_run (w : World) (op : HandleOp) : (op.run w).world.stores = w.stores := by
  cases op with
  | borrow h target =>
    simp only [run]
    split
    · rename_i w' hw
      show w'.stores = w.stores
      exact stores_of_borrow? hw
    · rfl
  | adopt h target =>
    simp only [run]
    split
    · rename_i w' hw
      show w'.stores = w.stores
      exact stores_of_adopt? hw
    · rfl
  | cloneFrom h src =>
    simp only [run, overwrite]
    split <;> simp [Outcome.put]
  | surrender h =>
    simp only [run]
    split <;> simp [Outcome.say]
  | hash probe =>
    simp only [run]
    split
    · rename_i grip w' hw
      exact stores_of_grip? hw
    · rfl
  | _ => simp [run, copy, copyOver, Outcome.put, Outcome.say]

theorem HostOp.stores_run (w : World) (op : HostOp) : (op.run w).world.stores = w.stores := by
  cases op with
  | decref o =>
    simp only [run]
    split
    · rename_i w' hw
      show w'.stores = w.stores
      exact stores_of_spend? hw
    · rfl
  | recover h keep =>
    simp only [run]
    (repeat' split) <;> rfl
  | dropRecovered =>
    simp only [run]
    split <;> rfl
  | incref o =>
    simp only [run]
    split <;> simp [Outcome.say, takeOne]
  | track h o | share h o | give h o | dropOwner o =>
    simp only [run]
    split <;> simp [Outcome.say, Outcome.put, letGo, takeOne]
  | retire o | setHashing o rule => rfl

theorem KeyOp.registry_run (w : World) (op : KeyOp) (s : Nat) :
    (op.run w).world.registry s = w.registry s := by
  cases op with
  | make k source =>
    simp only [run]
    split
    · rename_i h w' hw
      exact registry_of_stores (stores_of_obtain? hw) s
    · rfl
  | clone k src | unwrap k h | copyHandle k h | summary k layout =>
    simp only [run]
    split <;> simp [Outcome.say, Outcome.put, Outcome.putKey]
  | compare a b =>
    simp only [run]
    split <;> rfl
  | drop k => rfl

theorem KeySetOp.registry_run (w : World) (op : KeySetOp) (s : Nat) :
    (op.run w).world.registry s = w.registry s := by
  cases op <;> simp only [run] <;> (repeat' split) <;> rfl

/-! ## Operations on registries -/

namespace RegistryOp

theorem registry_logRemoved (w : World) (removed : List (ListenerId × Key)) (s : Nat) :
    (logRemoved w removed).registry s = w.registry s := by
  induction removed generalizing w with
  | nil => rfl
  | cons e removed ih =>
    rw [logRemoved, List.foldl_cons]
    exact (ih _).trans (registry_log _ _)

theorem takes_register {w : World} {s : Nat} {k : Key} {id? : Option ListenerId} {r : Registry}
    (h : (w.registry s).register k = .ok (id?, r)) (save : Option Nat) :
    ∃ out, register w s k save = .ok out ∧ out.Takes w s r (Reply.id id?).stored := by
  simp only [register, h, bind, Except.bind, pure, Except.pure]
  refine ⟨_, rfl, ?_⟩
  cases id? with
  | none => exact ⟨by simp, fun s' hs => by simp [registry_setRegistry, hs], rfl, [k.handle], rfl⟩
  | some id =>
    exact ⟨by simp [Outcome.say], fun s' hs => by simp [Outcome.say, registry_setRegistry, hs], rfl,
      [], rfl⟩

theorem takes_unlink {w : World} {s : Nat} {id : ListenerId} {found : Option Key} {r : Registry}
    (h : (w.registry s).unlink id = .ok (found, r)) (dest : Option Nat) (jobs : Handle → List Job)
    {answer : Answer}
    (hjobs : ∃ hs : List Handle,
      jobs (found.bind Key.handle) = hs.map .release ++ [.answer answer]) :
    ∃ out, unlink w s id dest jobs = .ok out ∧ out.Takes w s r answer := by
  obtain ⟨hs, hjobs⟩ := hjobs
  simp only [unlink, h, bind, Except.bind, pure, Except.pure]
  refine ⟨_, rfl, ?_⟩
  cases found with
  | none =>
    exact ⟨by simp, fun s' hs' => by simp [registry_setRegistry, hs'], rfl, hs, hjobs⟩
  | some k =>
    simp only [Option.bind_some] at hjobs
    cases dest with
    | none =>
      refine ⟨?_, fun s' hs' => ?_, rfl, k.handle :: hs, by simp [Outcome.deliver, hjobs]⟩
      · simp [Outcome.deliver]
      · simp [Outcome.deliver, registry_setRegistry, hs']
    | some d =>
      refine ⟨?_, fun s' hs' => ?_, rfl, (w.handle d) :: hs, ?_⟩
      · simp [Outcome.deliver, Outcome.put]
      · simp [Outcome.deliver, Outcome.put, registry_setRegistry, hs']
      · simp only [Outcome.deliver, Outcome.put, hjobs, List.map_cons, List.cons_append]
        rfl

/-- Operations on registries take their action at once, if they have one. -/
theorem takes_run {w : World} {op : RegistryOp} {s : Nat} {a : Action} {reply : Reply}
    {r : Registry} (ha : op.action? w = some (s, a))
    (hp : (w.registry s).perform a = .ok (reply, r)) :
    ∃ out, op.run w = .ok out ∧ out.Takes w s r (op.conclude reply) := by
  cases op with
  | insertKey s' k save =>
    obtain ⟨key, hkey, ha⟩ := Option.bind_eq_some_iff.1 ha
    split at ha
    · cases ha
    · rename_i hnull
      cases ha
      obtain ⟨o, ho⟩ := Option.ne_none_iff_exists'.1 hnull
      obtain ⟨id?, hr, rfl⟩ := Registry.register_of_perform hp
      obtain ⟨out, hout, htakes⟩ := takes_register (w := w.setKey k none) hr save
      exact ⟨out, by simp only [run, hkey, ho, hout], htakes.of_others fun _ _ => rfl⟩
  | get s' n =>
    obtain ⟨id, hid, ha⟩ := Option.map_eq_some_iff.1 ha
    cases ha
    cases hp
    refine ⟨_, by simp only [run, hid]; rfl, ?_⟩
    exact ⟨rfl, fun _ _ => rfl, rfl, [], rfl⟩
  | removeId s' n dest =>
    obtain ⟨id, hid, ha⟩ := Option.map_eq_some_iff.1 ha
    cases ha
    obtain ⟨found, hr, rfl⟩ := Registry.unlink_of_perform hp
    obtain ⟨out, hout, htakes⟩ := takes_unlink hr dest (fun h => [.answer (.entry h)]) ⟨[], rfl⟩
    exact ⟨out, by simp only [run, hid, hout], htakes⟩
  | clear s' =>
    cases ha
    obtain ⟨keys, hr, rfl⟩ := Registry.drain_of_perform hp
    refine ⟨_, by simp only [run, hr, bind, Except.bind]; rfl, ?_⟩
    exact ⟨by simp, fun s'' hs => by simp [registry_setRegistry, hs], rfl, keys.map Key.handle,
      by simp [conclude]⟩
  | discard s' =>
    cases ha
    cases hp
    refine ⟨_, rfl, ?_⟩
    exact ⟨by simp, fun s'' hs => by simp [registry_setRegistry, hs], rfl,
      (w.registry s).entries.map fun e => e.2.handle, by simp [conclude]⟩
  | size s' | entries s' =>
    cases ha
    cases hp
    exact ⟨_, rfl, rfl, fun _ _ => rfl, rfl, [], rfl⟩
  | insert | find | contains | remove | sameId | retain => cases ha

end RegistryOp

theorem Grip.handle_modifyObject (w : World) (o : ObjectId) (f : ForeignObject → ForeignObject)
    (grip : Grip) : grip.handle (w.modifyObject o f) = grip.handle w := by
  cases grip <;> rfl

theorem HashUse.action?_modifyObject (w : World) (o : ObjectId) (f : ForeignObject → ForeignObject)
    (outcome : HashOutcome) (use : HashUse) :
    use.action? (w.modifyObject o f) outcome = use.action? w outcome := by
  cases outcome <;> cases use <;> simp [action?, Grip.handle_modifyObject]

/-- The rest of an operation that hashes takes the operation's action. -/
theorem HashUse.takes_resume {w : World} {outcome : HashOutcome} {use : HashUse} {s : Nat}
    {a : Action} {reply : Reply} {r : Registry} (ha : use.action? w outcome = some (s, a))
    (hp : (w.registry s).perform a = .ok (reply, r)) :
    ∃ out, use.resume w outcome = .ok out ∧ out.Takes w s r (use.conclude reply) := by
  cases outcome with
  | error e => cases use <;> cases ha
  | ok hash =>
    cases use with
    | insert s' h save =>
      cases ha
      obtain ⟨id?, hr, rfl⟩ := Registry.register_of_perform hp
      exact RegistryOp.takes_register hr _
    | find s' probe save =>
      cases ha
      obtain ⟨id?, hr, rfl⟩ := Registry.locate_of_perform hp
      refine ⟨_, by simp only [resume, hr, bind, Except.bind]; rfl, ?_⟩
      refine ⟨?_, fun s'' hs => ?_, rfl, [probe.owned], rfl⟩
      · cases id? <;> simp
      · cases id? <;> simp [registry_setRegistry, hs]
    | contains s' probe =>
      cases ha
      obtain ⟨id?, hr, rfl⟩ := Registry.locate_of_perform hp
      refine ⟨_, by simp only [resume, hr, bind, Except.bind]; rfl, ?_⟩
      exact ⟨by simp, fun s'' hs => by simp [registry_setRegistry, hs], rfl, [probe.owned], rfl⟩
    | remove s' probe dest =>
      cases ha
      rcases Registry.unlink_of_perform_withdraw hp with ⟨hr, rfl⟩ | ⟨id, r₁, hr, hp⟩
      · refine ⟨_, by simp only [resume, hr, bind, Except.bind]; rfl, ?_⟩
        exact ⟨by simp, fun s'' hs => by simp [registry_setRegistry, hs], rfl, [probe.owned], rfl⟩
      · -- the entry is unlinked in the world in which it was found
        obtain ⟨found, hunlink, rfl⟩ := Registry.unlink_of_perform hp
        have hreg : ((w.setRegistry s r₁).registry s).unlink id = .ok (found, r) := by
          rw [registry_setRegistry_self, hunlink]
        obtain ⟨out, hout, htakes⟩ := RegistryOp.takes_unlink hreg dest
          (fun h => [.release probe.owned, .answer (.withdrawn h)]) ⟨[probe.owned], rfl⟩
        exact ⟨out, by simp only [resume, hr, bind, Except.bind, hout],
          htakes.of_others fun s'' hs => by rw [registry_setRegistry, if_neg hs]⟩
    | answer | compareWith | compareTo | makeKey | screen => cases ha

theorem RegistryOp.takes_screen {w : World} {s : Screening} {reply : Reply} {r : Registry}
    (hpending : s.pending = [])
    (hp : (w.registry s.registry).perform (.strike s.doomed.reverse) = .ok (reply, r)) :
    ∃ out, screen w s = .ok out ∧ out.Takes w s.registry r (.count reply.listed.length) := by
  obtain ⟨removed, hr, rfl⟩ := Registry.prune_of_perform hp
  refine ⟨_, by simp only [screen, hpending, prune, hr, bind, Except.bind]; rfl, ?_⟩
  refine ⟨?_, fun s' hs => ?_, rfl, removed.map fun e => e.2.handle, by simp [Reply.listed]⟩
  · split <;> simp [registry_logRemoved]
  · split <;> simp [registry_logRemoved, registry_setRegistry, hs]

/-- **A job that has an action takes it.** -/
theorem Job.takes_run {w : World} {t : Job} {s : Nat} {a : Action} {reply : Reply} {r : Registry}
    (ha : t.action? w = some (s, a)) (hp : (w.registry s).perform a = .ok (reply, r)) :
    ∃ out, t.run w = .ok out ∧ out.Takes w s r (t.conclude reply) := by
  cases t with
  | perform step =>
    cases step with
    | op op =>
      cases op with
      | registry op => exact RegistryOp.takes_run ha hp
      | handle | host | key | keySet => cases ha
    | batch => cases ha
  | ask use =>
    simp only [action?] at ha
    split at ha
    · rename_i hnull
      simp only [run, hnull]
      exact HashUse.takes_resume ha hp
    · cases ha
  | hashed o use =>
    have ha' : use.action? (w.modifyObject o ForeignObject.countHash) (w.hashOutcome o) =
        some (s, a) := by
      rw [← ha, action?, HashUse.action?_modifyObject]
    obtain ⟨out, hout, htakes⟩ := HashUse.takes_resume ha' hp
    exact ⟨out, hout, htakes.of_others fun _ _ => rfl⟩
  | screen sc =>
    simp only [action?] at ha
    split at ha
    · rename_i hpending
      cases ha
      exact RegistryOp.takes_screen hpending hp
    · cases ha
  | release | install | log | answer | answerCount | record | gather | leave => cases ha

/-! ## Jobs without an action -/

/-- The outcome of a job that takes no action. -/
def Outcome.Leaves (result : Except Fault Outcome) (w : World) : Prop :=
  ∃ out, result = .ok out ∧ ∀ s, out.world.registry s = w.registry s

theorem RegistryOp.leaves_run {w : World} {op : RegistryOp} (ha : op.action? w = none) :
    Outcome.Leaves (op.run w) w := by
  cases op with
  | insert s source save =>
    simp only [run]
    split
    · exact ⟨_, rfl, fun _ => rfl⟩
    · rename_i w' hw
      exact ⟨_, rfl, registry_of_stores (stores_of_obtain? hw)⟩
    · rename_i o w' hw
      exact ⟨_, rfl, registry_of_stores (stores_of_obtain? hw)⟩
  | insertKey s k save =>
    simp only [run]
    cases hkey : w.key? k with
    | none => exact ⟨_, rfl, fun _ => rfl⟩
    | some key =>
      simp only [action?, hkey, Option.bind_some] at ha
      split at ha
      · rename_i hnull
        exact ⟨_, by simp only [hnull]; rfl, fun _ => rfl⟩
      · cases ha
  | find s probe save | contains s probe | remove s probe dest =>
    simp only [run]
    split
    · exact ⟨_, rfl, fun _ => rfl⟩
    · rename_i grip w' hw
      split <;> exact ⟨_, rfl, registry_of_stores (stores_of_grip? hw)⟩
  | get s n | removeId s n dest =>
    have hid : w.savedId? n = none := Option.map_eq_none_iff.1 ha
    exact ⟨_, by simp only [run, hid]; rfl, fun _ => rfl⟩
  | sameId a b =>
    simp only [run]
    split <;> exact ⟨_, rfl, fun _ => rfl⟩
  | retain s keep => exact ⟨_, rfl, fun _ => rfl⟩
  | clear | discard | size | entries => cases ha

theorem HashUse.leaves_resume {w : World} {outcome : HashOutcome} {use : HashUse}
    (ha : use.action? w outcome = none) : Outcome.Leaves (use.resume w outcome) w := by
  cases use with
  | insert s h save | find s probe save | contains s probe | remove s probe dest =>
    cases outcome with
    | error e => exact ⟨_, rfl, fun _ => rfl⟩
    | ok hash => cases ha
  | makeKey k h => cases outcome <;> exact ⟨_, rfl, fun _ => rfl⟩
  | answer | compareWith | compareTo | screen => exact ⟨_, rfl, fun _ => rfl⟩

theorem RegistryOp.leaves_screen {w : World} {s : Screening} (hpending : s.pending ≠ []) :
    Outcome.Leaves (screen w s) w ∨ screen w s = .error .overrun := by
  obtain ⟨i, pending, hi⟩ := List.exists_cons_of_ne_nil hpending
  simp only [screen, hi]
  split
  · exact Or.inl ⟨_, rfl, fun _ => rfl⟩
  · rename_i id k _
    split
    · exact Or.inr rfl
    · have hsame (s' : Nat) : (k.handle.elim w fun o => w.emit (.keep o)).registry s' =
          w.registry s' := by
        cases k.handle <;> rfl
      split <;> exact Or.inl ⟨_, rfl, hsame⟩

/-- **A job without an action touches no registry**, and breaks no promise but
one: a retaining step may meet more entries than there were. -/
theorem Job.leaves_run {w : World} {t : Job} (ha : t.action? w = none) :
    Outcome.Leaves (t.run w) w ∨ ∃ s, t = .screen s ∧ t.run w = .error .overrun := by
  cases t with
  | perform step =>
    refine Or.inl ?_
    cases step with
    | op op =>
      cases op with
      | registry op => exact RegistryOp.leaves_run ha
      | handle op => exact ⟨_, rfl, registry_of_stores (op.stores_run w)⟩
      | host op => exact ⟨_, rfl, registry_of_stores (op.stores_run w)⟩
      | key op => exact ⟨_, rfl, op.registry_run w⟩
      | keySet op => exact ⟨_, rfl, op.registry_run w⟩
    | batch steps => cases steps <;> exact ⟨_, rfl, fun _ => rfl⟩
  | release h =>
    refine Or.inl ?_
    cases h with
    | none => exact ⟨_, rfl, fun _ => rfl⟩
    | some o =>
      simp only [run]
      split <;> exact ⟨_, rfl, fun _ => rfl⟩
  | install h new => exact Or.inl ⟨_, rfl, fun s => by simp⟩
  | ask use =>
    refine Or.inl ?_
    simp only [run]
    split
    · rename_i hnull
      rw [action?, if_pos hnull] at ha
      exact HashUse.leaves_resume ha
    · exact ⟨_, rfl, fun _ => rfl⟩
  | hashed o use =>
    have ha' : use.action? (w.modifyObject o ForeignObject.countHash) (w.hashOutcome o) = none := by
      rw [← ha, action?, HashUse.action?_modifyObject]
    obtain ⟨out, hout, hsame⟩ := HashUse.leaves_resume ha'
    exact Or.inl ⟨out, hout, hsame⟩
  | screen sc =>
    have hpending : sc.pending ≠ [] := by
      intro h
      simp [action?, h] at ha
    exact (RegistryOp.leaves_screen hpending).imp id fun h => ⟨sc, rfl, h⟩
  | gather steps answers =>
    refine Or.inl ?_
    cases steps <;> exact ⟨_, rfl, fun _ => rfl⟩
  | log | answer | answerCount | record | leave => exact Or.inl ⟨_, rfl, fun _ => rfl⟩

/-- A job without an action leaves the registries alone. -/
theorem Job.registry_run {w : World} {t : Job} {out : Outcome} (ha : t.action? w = none)
    (h : t.run w = .ok out) (s : Nat) : out.world.registry s = w.registry s := by
  rcases leaves_run ha with ⟨out', hout, hsame⟩ | ⟨-, -, herr⟩
  · obtain rfl := Except.ok.inj (hout.symm.trans h)
    exact hsame s
  · rw [herr] at h
    cases h

/-! ## Worlds of sound registries -/

/-- Every registry is sound. -/
def World.Consistent (w : World) : Prop := ∀ s, (w.registry s).Sound

theorem World.consistent_init (objects : List ForeignObject) : (init objects).Consistent := by
  intro s
  rw [show (init objects).registry s = .empty from Bank.read_empty s]
  exact Registry.sound_empty

theorem Job.consistent_run {w : World} {t : Job} {out : Outcome} (hw : w.Consistent)
    (h : t.run w = .ok out) : out.world.Consistent := by
  intro s'
  cases ha : t.action? w with
  | some sa =>
    obtain ⟨s, a⟩ := sa
    obtain ⟨r, hp, -, hsound⟩ := Registry.perform_eq (hw s) a
    obtain ⟨out', hout, htakes⟩ := Job.takes_run ha hp
    obtain rfl : out' = out := by simpa [hout] using h
    by_cases hs : s' = s
    · rw [hs, htakes.acted]
      exact hsound
    · rw [htakes.others s' hs]
      exact hw s'
  | none =>
    rw [Job.registry_run ha h]
    exact hw s'

/-- With sound registries, only a retaining step can break a promise. -/
theorem Job.fault_of_consistent {w : World} {t : Job} {f : Fault} (hw : w.Consistent)
    (h : t.run w = .error f) : f = .overrun ∧ ∃ s, t = .screen s := by
  cases ha : t.action? w with
  | some sa =>
    obtain ⟨s, a⟩ := sa
    obtain ⟨r, hp, -⟩ := Registry.perform_eq (hw s) a
    obtain ⟨out, hout, -⟩ := Job.takes_run ha hp
    simp [hout] at h
  | none =>
    rcases Job.leaves_run ha with ⟨out, hout, -⟩ | ⟨s, rfl, herr⟩
    · simp [hout] at h
    · obtain rfl : Fault.overrun = f := by simpa [herr] using h
      exact ⟨rfl, s, rfl⟩

end ListenerRegistry
