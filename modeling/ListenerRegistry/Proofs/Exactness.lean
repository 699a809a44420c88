import ListenerRegistry.Proofs.Requests

/-!
# Exact errors, and failures that leave no trace

An operation fails for the reason that it gives and for no other one. If it fails, or does
not find what it is about, its registry is what it was before, down to the slots that are
free: whatever a client asks for next, it gets the same answers and the same ids as if the
operation had been left out. A handle that is refused is released, once.
-/

namespace ListenerRegistry

/-! ## Exact errors -/

/-- The one way in which hashing can fail. -/
theorem World.unhashable_of_hashOutcome {w : World} {o : ObjectId} {e : Error}
    (h : w.hashOutcome o = .error e) : ∃ reason, e = .unhashable reason := by
  unfold hashOutcome at h
  rcases hx : w.objects[o]? with _ | x
  · rw [hx] at h
    cases h
  · rw [hx, Option.elim_some, ForeignObject.hashOutcome] at h
    rcases hsource : x.hashing.source x.hashCalls with _ | _ | hash | m | reason <;>
      rw [hsource] at h <;> cases h
    exact ⟨reason, rfl⟩

/-- **What comes of storing a handle** beside the entries `es`, if it is null or hashing its
object comes to `outcome`. -/
structure Stores (es : List (ListenerId × Key)) (h : Handle) (outcome : HashOutcome)
    (answer : Answer) : Prop where
  null : answer = .failed .nullListener ↔ h = none
  unhashable : ∀ reason, answer = .failed (.unhashable reason) ↔
    h ≠ none ∧ outcome = .error (.unhashable reason)
  duplicate : answer = .failed .duplicateListener ↔
    h ≠ none ∧ ∃ hash id, outcome = .ok hash ∧ (id, ⟨h, hash⟩) ∈ es
  stored : (∃ id, answer = .located (some id)) ↔
    h ≠ none ∧ ∃ hash, outcome = .ok hash ∧ ∀ id, (id, ⟨h, hash⟩) ∉ es

section

variable {es : List (ListenerId × Key)} {o : ObjectId}

theorem stores_null (es : List (ListenerId × Key)) (outcome : HashOutcome) :
    Stores es none outcome (.failed .nullListener) := by
  constructor <;> simp

theorem stores_unhashable (es : List (ListenerId × Key)) (o : ObjectId) (reason : String) :
    Stores es (some o) (.error (.unhashable reason)) (.failed (.unhashable reason)) := by
  constructor <;> simp [eq_comm]

theorem stores_duplicate {id : ListenerId} {hash : UInt64} (h : (id, ⟨some o, hash⟩) ∈ es) :
    Stores es (some o) (.ok hash) (.failed .duplicateListener) := by
  constructor
  · simp
  · simp
  · simpa using ⟨id, h⟩
  · simpa using ⟨id, h⟩

theorem stores_stored {hash : UInt64} (h : ∀ id, (id, ⟨some o, hash⟩) ∉ es) (id : ListenerId) :
    Stores es (some o) (.ok hash) (.located (some id)) := by
  constructor
  · simp
  · simp
  · simpa using h
  · simpa using h

end

namespace Registry

variable {r r' : Registry} {op : RegistryOp} {answer : Answer} {reply : Reply} {k : Key}

/-- A key is refused if there is an entry with that hash on that object, and the registry
is left as it is. Otherwise it is stored. -/
theorem refused_or_stored (hr : r.Sound) (h : r.perform (.insert k) = .ok (reply, r')) :
    (reply = .id none ∧ r' = r ∧ ∃ id, (id, k) ∈ r.entries) ∨
      (∃ id, reply = .id (some id)) ∧ ∀ id, (id, k) ∉ r.entries := by
  obtain ⟨id?, hregister, rfl⟩ := register_of_perform h
  rcases hid : Roster.idOf? r.slots k with _ | id
  · rw [register_of_absent hr hid] at hregister
    cases hregister
    refine Or.inr ⟨⟨_, rfl⟩, fun id hmem => ?_⟩
    exact Roster.idOf?_eq_none_iff.1 hid (List.mem_map.2 ⟨_, hmem, rfl⟩)
  · rw [register_of_present hr hid] at hregister
    cases hregister
    exact Or.inl ⟨rfl, rfl, id, Roster.mem_entries_of_idOf? hid⟩

theorem stores_of_serve (hr : r.Sound) (hop : ∀ reply, op.conclude reply = reply.stored)
    {o : ObjectId} {hash : UInt64}
    (h : r.serve op (.ok (.insert ⟨some o, hash⟩)) = .ok (answer, r')) :
    Stores r.entries (some o) (.ok hash) answer := by
  obtain ⟨reply, hperform, rfl⟩ := perform_of_serve h
  rw [hop]
  rcases refused_or_stored hr hperform with ⟨rfl, -, id, hmem⟩ | ⟨⟨id, rfl⟩, hnone⟩
  · exact stores_duplicate hmem
  · exact stores_stored hnone id

/-- Looking a probe up fails only if hashing it failed. -/
theorem failed_iff_of_seek {x : Option Hashing} {obtained : Bool} {missing : Answer}
    {act : Key → Action} (h : r.serve op (RegistryOp.seek x obtained missing act) = .ok (answer, r'))
    (hmissing : ∀ e, missing ≠ .failed e) (hop : ∀ reply e, op.conclude reply ≠ .failed e)
    (e : Error) : answer = .failed e ↔ ∃ y ∈ x, y.outcome = .error e := by
  rcases x with _ | ⟨o, e' | hash, probe⟩
  · have hanswer : (if obtained then missing else .dead) = answer :=
      (Prod.mk.inj (Except.ok.inj h)).1
    rw [← hanswer]
    cases obtained <;> simp [hmissing]
  · have hanswer : .failed e' = answer := (Prod.mk.inj (Except.ok.inj h)).1
    rw [← hanswer]
    simp
  · obtain ⟨reply, -, rfl⟩ := perform_of_serve h
    simp [hop]

end Registry

/-! ## Failures -/

/-- The operation failed, or what it was about is not there. -/
def Answer.void : Answer → Bool
  | failed _ | dead | noKey | noId => true
  | located none | verdict false | withdrawn none | entry none => true
  | _ => false

theorem RegistryOp.exists_of_seek {x : Option Hashing} {obtained : Bool} {missing : Answer}
    {act : Key → Action} {action : Action} (h : seek x obtained missing act = .ok action) :
    ∃ k, action = act k := by
  unfold seek at h
  split at h
  · split at h
    · exact ⟨_, (Except.ok.inj h).symm⟩
    · cases h
  · cases h

namespace Registry

variable {r r' : Registry} {op : RegistryOp} {answer : Answer} {reply : Reply}

theorem eq_of_find (hr : r.Sound) {k : Key} (h : r.perform (.find k) = .ok (reply, r')) :
    r' = r := by
  obtain ⟨id?, hlocate, -⟩ := locate_of_perform h
  rw [locate_eq hr] at hlocate
  cases hlocate
  rfl

/-- Taking out an id with which nothing comes out changes nothing. -/
theorem eq_of_removeId (hr : r.Sound) (hpeopled : ∀ id k, r.get? id = some k → k.handle ≠ none)
    {id : ListenerId} (h : r.perform (.removeId id) = .ok (reply, r'))
    (hnone : reply.found.bind Key.handle = none) : r' = r := by
  obtain ⟨found, hunlink, rfl⟩ := unlink_of_perform h
  rcases hget : r.get? id with _ | k
  · rw [unlink_of_stale hr.idle hget] at hunlink
    cases hunlink
    rfl
  · -- an entry has come out, and it is on an object
    obtain ⟨r'', hunlink', -⟩ := unlink_eq hr id
    rw [hunlink', Roster.take_fst] at hunlink
    obtain ⟨rfl, -⟩ := Prod.mk.inj (Except.ok.inj hunlink)
    have hfound : (r.slots.get? id).bind Key.handle = none := hnone
    rw [show r.slots.get? id = some k from hget] at hfound
    exact absurd hfound (hpeopled id k hget)

theorem eq_of_withdraw (hr : r.Sound) (hpeopled : ∀ id k, r.get? id = some k → k.handle ≠ none)
    {k : Key} (h : r.perform (.withdraw k) = .ok (reply, r'))
    (hnone : reply.found.bind Key.handle = none) : r' = r := by
  rcases unlink_of_perform_withdraw h with ⟨hlocate, -⟩ | ⟨id, r₁, hlocate, hremove⟩
  · rw [locate_eq hr] at hlocate
    exact (Prod.mk.inj (Except.ok.inj hlocate)).2.symm
  · rw [locate_eq hr] at hlocate
    obtain ⟨-, rfl⟩ := Prod.mk.inj (Except.ok.inj hlocate)
    exact eq_of_removeId hr hpeopled hremove hnone

/-- **A request that comes to nothing changes nothing.** -/
theorem eq_of_void (hr : r.Sound) (hpeopled : ∀ id k, r.get? id = some k → k.handle ≠ none)
    {v : World} {x : Option Hashing} {ruled : List (ListenerId × Bool)}
    (h : r.serve op (op.request v x ruled) = .ok (answer, r')) (hvoid : answer.void = true) :
    r' = r := by
  rcases hrequest : op.request v x ruled with a | action
  · rw [hrequest] at h
    cases h
    rfl
  · rw [hrequest] at h
    obtain ⟨reply, hperform, rfl⟩ := perform_of_serve h
    have hfound {h : Handle} {f : Handle → Answer} (hf : ∀ o, (f (some o)).void = false)
        (hvoid : (f h).void = true) : h = none := by
      rcases h with _ | o
      · rfl
      · rw [hf o] at hvoid
        cases hvoid
    cases op with
    | insert s source save =>
      obtain ⟨k, rfl⟩ := RegistryOp.exists_of_seek hrequest
      rcases refused_or_stored hr hperform with ⟨-, hsame, -⟩ | ⟨⟨id, rfl⟩, -⟩
      · exact hsame
      · cases hvoid
    | insertKey s k save =>
      simp only [RegistryOp.request] at hrequest
      split at hrequest
      · cases hrequest
      · split at hrequest
        · cases hrequest
        · cases hrequest
          rcases refused_or_stored hr hperform with ⟨-, hsame, -⟩ | ⟨⟨id, rfl⟩, -⟩
          · exact hsame
          · cases hvoid
    | find s probe save | contains s probe =>
      obtain ⟨k, rfl⟩ := RegistryOp.exists_of_seek hrequest
      exact eq_of_find hr hperform
    | remove s probe dest =>
      obtain ⟨k, rfl⟩ := RegistryOp.exists_of_seek hrequest
      exact eq_of_withdraw hr hpeopled hperform (hfound (f := .withdrawn) (fun _ => rfl) hvoid)
    | get s n =>
      rcases hid : v.savedId? n with _ | id <;> rw [RegistryOp.request, hid] at hrequest <;>
        cases hrequest
      cases hperform
      rfl
    | removeId s n dest =>
      rcases hid : v.savedId? n with _ | id <;> rw [RegistryOp.request, hid] at hrequest <;>
        cases hrequest
      exact eq_of_removeId hr hpeopled hperform (hfound (f := .entry) (fun _ => rfl) hvoid)
    | _ => cases hvoid

end Registry

/-! ## Handles that are refused -/

/-- What comes of a job that is to store the handle `h`. If the handle is refused, it is
released, once. -/
structure Outcome.Stores (out : Outcome) (h : Handle) : Prop where
  call : out.call = none
  jobs : (∃ closing e, out.jobs = closing ++ [.answer (.failed e)] ∧ (∀ u ∈ closing, u.Closing) ∧
      closing.filterMap Job.released? = [h]) ∨
    ∃ id, out.jobs = [.answer (.located (some id))]

theorem RegistryOp.stores_register {w : World} {s : Nat} (hw : (w.registry s).Sound) (k : Key)
    (save : Option Nat) : ∃ out, register w s k save = .ok out ∧ out.Stores k.handle := by
  obtain ⟨r, hr, -⟩ := Registry.register_eq hw k
  simp only [register, hr, bind, Except.bind]
  rcases (Roster.add (w.registry s).slots k).1 with _ | id
  · exact ⟨_, rfl, rfl, Or.inl ⟨[.release k.handle], .duplicateListener, rfl,
      by simp [Job.Closing], rfl⟩⟩
  · exact ⟨_, rfl, rfl, Or.inr ⟨id, rfl⟩⟩

theorem Job.stores_hashed {w : World} (hw : w.Consistent) (o : ObjectId) (s : Nat) (h : Handle)
    (save : Option Nat) : ∃ out, (hashed o (.insert s h save)).run w = .ok out ∧ out.Stores h := by
  simp only [run]
  rcases w.hashOutcome o with e | hash
  · exact ⟨_, rfl, rfl, Or.inl ⟨[.release h, .log (.rejecting e)], e, rfl, by simp [Job.Closing], rfl⟩⟩
  · have hsound : ((w.modifyObject o ForeignObject.countHash).registry s).Sound := hw s
    exact RegistryOp.stores_register hsound ⟨h, hash⟩ save

/-- From the turn in which a handle is refused on, the handle is all that is released. -/
theorem Machine.Run.releases_of_refused {a c : Machine} {ms : List Machine} {t : Job}
    {rest : List Job} {out : Outcome} {p : Handle} {e : Error} (h : Run a (a :: ms) c)
    (hjobs : a.jobs = t :: rest) (ht : t.visits = false) (hrun : t.run a.world = .ok out)
    (hout : out.Stores p) (hc : c.jobs = rest) (hms : ∀ x ∈ ms, rest.length < x.jobs.length)
    (hfail : c.world.answer = .failed e) : Machine.releases rest ms = [p] := by
  cases h with
  | cons hturn hrest =>
    obtain rfl := hturn.eq_of_run hjobs hrun hout.call ht
    rcases hout.jobs with ⟨closing, e', hout, hclosing, hreleased⟩ | ⟨id, hout⟩
    · have hbelow : out.jobs ++ rest = closing ++ .answer (.failed e') :: rest := by simp [hout]
      exact (hrest.releases hclosing hbelow hc hms).1.trans hreleased
    · have hbelow : out.jobs ++ rest = [] ++ .answer (.located (some id)) :: rest := by simp [hout]
      obtain ⟨-, -, hanswer⟩ := hrest.answers hbelow hc hms
      rw [hanswer] at hfail
      cases hfail

namespace Performance

open Machine

variable {p : Performance} {s : Nat} {e : Error}

/-- The first turn of an operation releases nothing. -/
theorem Complete.releases_first (hp : p.Complete) {ms : List Machine}
    (hduring : p.during = p.first :: ms) : releases p.rest p.during = releases p.rest ms := by
  have hfirst : p.first.released? p.rest = none := by simp only [released?, hp.begins]
  rw [hduring, releases, List.filterMap_cons_none hfirst]
  rfl

/-- An operation that comes to its answer at once releases nothing. -/
theorem Complete.releases_of_say (hp : p.Complete) {w : World} {a : Answer}
    (hrun : p.op.run p.first.world = .ok (.say w a)) :
    p.answer = a ∧ releases p.rest p.during = [] := by
  obtain ⟨d, ms, hduring, hturn, hrest, hlonger⟩ := hp.starts
  obtain rfl := hturn.eq_of_run hp.begins hrun rfl rfl
  have hjobs : [.answer a] ++ p.rest = [] ++ .answer a :: p.rest := rfl
  obtain ⟨-, -, hanswer⟩ := hrest.answers hjobs hp.ends hlonger
  refine ⟨hanswer, ?_⟩
  rw [hp.releases_first hduring]
  exact (hrest.releases (by simp) hjobs hp.ends hlonger).1

/-- A handle that is offered and refused is released once, unless it is null. -/
theorem Complete.releases_of_insert (hp : p.Complete) (hw : p.first.world.Consistent)
    {source : Source} {save : Option Nat} (hop : p.op = .insert s source save)
    (hfail : p.answer = .failed e) :
    releases p.rest p.during = (source.target p.first.world).toList.map some := by
  rcases hobtain : p.first.world.obtain? source with _ | ⟨h, w⟩
  · have hrun : p.op.run p.first.world = .ok (.say p.first.world .dead) := by
      rw [hop]
      simp only [RegistryOp.run, hobtain]
    rw [(hp.releases_of_say hrun).1] at hfail
    cases hfail
  · rw [World.target_of_obtain? hobtain]
    rcases h with _ | o
    · have hrun : p.op.run p.first.world = .ok (.say w (.failed .nullListener)) := by
        rw [hop]
        simp only [RegistryOp.run, hobtain]
      exact (hp.releases_of_say hrun).2
    · have hrun : p.op.run p.first.world =
          .ok { world := w, jobs := [.ask (.insert s (some o) save)] } := by
        rw [hop]
        simp only [RegistryOp.run, hobtain]
      obtain ⟨hooks, h, after, hduring, hbefore, hafter, hjobs, hhooks, hlonger⟩ := hp.asks hrun rfl
      have hconsistent : h.world.Consistent := (hbefore.preserves_consistent hw).1
      obtain ⟨out, hout, hstores⟩ := Job.stores_hashed hconsistent o s (some o) save
      have hhash : h.released? p.rest = none := by simp only [released?, hjobs]
      have hidle : p.op.action? p.first.world = none := by rw [hop]; rfl
      rw [hduring, releases_append, (hp.asks_idle (s := s) hidle rfl hhooks).2.1, List.nil_append,
        releases, List.filterMap_cons_none hhash]
      exact hafter.releases_of_refused hjobs rfl hout hstores hp.ends hlonger hfail

theorem Complete.releases_of_insertKey (hp : p.Complete) (hw : p.first.world.Consistent)
    {k : Nat} {save : Option Nat} (hop : p.op = .insertKey s k save)
    (hfail : p.answer = .failed e) :
    releases p.rest p.during =
      ((p.first.world.key? k).bind Key.handle).toList.map some := by
  rcases hkey : p.first.world.key? k with _ | key
  · have hrun : p.op.run p.first.world = .ok (.say p.first.world .noKey) := by
      rw [hop]
      simp only [RegistryOp.run, hkey]
    rw [(hp.releases_of_say hrun).1] at hfail
    cases hfail
  · rw [Option.bind_some]
    rcases hhandle : key.handle with _ | o
    · have hrun : p.op.run p.first.world =
          .ok (.say (p.first.world.setKey k none) (.failed .nullListener)) := by
        rw [hop]
        simp only [RegistryOp.run, hkey, hhandle]
      exact (hp.releases_of_say hrun).2
    · have hsound : ((p.first.world.setKey k none).registry s).Sound := hw s
      obtain ⟨out, hout, hstores⟩ := RegistryOp.stores_register hsound key save
      obtain ⟨d, ms, hduring, hturn, hrest, hlonger⟩ := hp.starts
      have hrun : (Job.perform (.op (.registry p.op))).run p.first.world = .ok out := by
        rw [hop]
        simp only [Job.run, Op.run, RegistryOp.run, hkey, hhandle, hout]
      rw [hp.releases_first hduring]
      rw [hhandle] at hstores
      exact (Run.cons hturn hrest).releases_of_refused hp.begins rfl hrun hstores hp.ends hlonger hfail

/-- **The errors of an operation are exact.** A listener is refused for one of three reasons,
and if none of them is given, it is stored. An operation that looks a probe up fails only if
hashing it failed, with the error that came of it. -/
def Exact (p : Performance) (s : Nat) : Prop :=
  match p.op with
  | .insert _ source _ => p.first.world.obtain? source ≠ none → ∃ outcome,
      p.hashings = (source.target p.first.world).toList.map (fun o => ⟨o, outcome, some o⟩) ∧
        Stores (p.first.world.registry s).entries (source.target p.first.world) outcome p.answer
  | .insertKey _ k _ => ∀ key, p.first.world.key? k = some key → p.hashings = [] ∧
      Stores (p.first.world.registry s).entries key.handle (.ok key.hash) p.answer
  | .find .. | .contains .. | .remove .. =>
      p.hashings.map Hashing.object = (p.op.sought p.first.world).toList ∧
        ∀ e, p.answer = .failed e ↔ ∃ x ∈ p.hashings, x.outcome = .error e
  | _ => True

/-- A handle that an operation was to store and did not store is released, once. -/
def Returns (p : Performance) : Prop :=
  match p.op with
  | .insert _ source _ => ∀ e, p.answer = .failed e →
      releases p.rest p.during = (source.target p.first.world).toList.map some
  | .insertKey _ k _ => ∀ e, p.answer = .failed e →
      releases p.rest p.during = ((p.first.world.key? k).bind Key.handle).toList.map some
  | _ => True

theorem Complete.returns (hp : p.Complete) (hw : p.first.world.Consistent) : p.Returns := by
  unfold Returns
  split
  · rename_i s source save hop
    exact fun e hfail => hp.releases_of_insert hw hop hfail
  · rename_i s k save hop
    exact fun e hfail => hp.releases_of_insertKey hw hop hfail
  · trivial

theorem Complete.exact_insert (hp : p.Complete) (hw : p.first.world.Consistent)
    (hpeopled : p.first.world.Peopled) (hs : p.op.registry? = some s) (hcalm : p.Undisturbed s)
    {s' : Nat} {source : Source} {save : Option Nat} (hop : p.op = .insert s' source save)
    (hobtain : p.first.world.obtain? source ≠ none) : ∃ outcome,
      p.hashings = (source.target p.first.world).toList.map (fun o => ⟨o, outcome, some o⟩) ∧
        Stores (p.first.world.registry s).entries (source.target p.first.world) outcome
          p.answer := by
  obtain ⟨⟨h, w⟩, hobtained⟩ := Option.ne_none_iff_exists'.1 hobtain
  have hsought : p.op.sought p.first.world = source.target p.first.world := by
    rw [hop, RegistryOp.sought, hobtained]
    rfl
  have hserve := hp.serves hw hpeopled hs hcalm
  rcases (hp.goes hw fun s keep hretain => by cases hop.symm.trans hretain).1 with
    ⟨hnull, hnone⟩ | ⟨s'', o, use, h, -, hseeks, hhash⟩
  · have hrequest : p.request = .error (.failed .nullListener) := by
      rw [request, hnone, hop]
      simp [RegistryOp.request, RegistryOp.seek, hobtained]
    rw [hrequest] at hserve
    have hanswer : .failed .nullListener = p.answer := (Prod.mk.inj (Except.ok.inj hserve)).1
    rw [← hsought, hnull, ← hanswer, hnone]
    exact ⟨.ok 0, rfl, stores_null _ _⟩
  · rw [hseeks.kept s' source save hop] at hhash
    rw [hseeks.sought] at hsought
    rw [← hsought]
    refine ⟨h.world.hashOutcome o, hhash, ?_⟩
    have hrequest : p.request = RegistryOp.seek (some ⟨o, h.world.hashOutcome o, some o⟩)
        (p.first.world.obtain? source).isSome (.failed .nullListener) .insert := by
      rw [request, hhash, hop]
      rfl
    rw [hrequest] at hserve
    rcases hout : h.world.hashOutcome o with e | hash
    · obtain ⟨reason, rfl⟩ := World.unhashable_of_hashOutcome hout
      rw [hout] at hserve
      have hanswer : .failed (.unhashable reason) = p.answer :=
        (Prod.mk.inj (Except.ok.inj hserve)).1
      rw [← hanswer]
      exact stores_unhashable _ o reason
    · rw [hout] at hserve
      refine Registry.stores_of_serve (hw s) (fun reply => ?_) hserve
      rw [hop]
      rfl

theorem Complete.exact_insertKey (hp : p.Complete) (hw : p.first.world.Consistent)
    (hpeopled : p.first.world.Peopled) (hs : p.op.registry? = some s) (hcalm : p.Undisturbed s)
    {s' k : Nat} {save : Option Nat} (hop : p.op = .insertKey s' k save) {key : Key}
    (hkey : p.first.world.key? k = some key) : p.hashings = [] ∧
      Stores (p.first.world.registry s).entries key.handle (.ok key.hash) p.answer := by
  have hserve := hp.serves hw hpeopled hs hcalm
  have hnone : p.hashings = [] := by
    rcases (hp.goes hw fun s keep hretain => by cases hop.symm.trans hretain).1 with
      ⟨-, hnone⟩ | ⟨s'', o, use, h, -, hseeks, -⟩
    · exact hnone
    · have hsought := hseeks.sought
      rw [hop] at hsought
      cases hsought
  refine ⟨hnone, ?_⟩
  rw [request, hop] at hserve
  simp only [RegistryOp.request, hkey] at hserve
  by_cases hnull : key.handle = none
  · rw [if_pos hnull] at hserve
    have hanswer : .failed .nullListener = p.answer := (Prod.mk.inj (Except.ok.inj hserve)).1
    rw [hnull, ← hanswer]
    exact stores_null _ _
  · rw [if_neg hnull] at hserve
    obtain ⟨handle, hash⟩ := key
    obtain ⟨o, rfl⟩ := Option.ne_none_iff_exists'.1 hnull
    exact Registry.stores_of_serve (hw s) (fun _ => rfl) hserve

/-- What an operation hashes that looks a probe up, and when it fails. -/
theorem Complete.exact_probe (hp : p.Complete) (hw : p.first.world.Consistent)
    (hpeopled : p.first.world.Peopled) (hs : p.op.registry? = some s) (hcalm : p.Undisturbed s)
    (hretain : ∀ s keep, p.op ≠ .retain s keep) {obtained : Bool} {missing : Answer}
    {act : Key → Action}
    (hrequest : p.request = RegistryOp.seek p.hashings.head? obtained missing act)
    (hmissing : ∀ e, missing ≠ .failed e) (hop : ∀ reply e, p.op.conclude reply ≠ .failed e) :
    p.hashings.map Hashing.object = (p.op.sought p.first.world).toList ∧
      ∀ e, p.answer = .failed e ↔ ∃ x ∈ p.hashings, x.outcome = .error e := by
  have hserve := hp.serves hw hpeopled hs hcalm
  rw [hrequest] at hserve
  have hfails := Registry.failed_iff_of_seek hserve hmissing hop
  rcases (hp.goes hw hretain).1 with ⟨hnull, hnone⟩ | ⟨s, o, use, h, -, hseeks, hhash⟩
  · rw [hnull, hnone]
    rw [hnone] at hfails
    exact ⟨rfl, fun e => by simpa using hfails e⟩
  · rw [hseeks.sought, hhash]
    rw [hhash] at hfails
    exact ⟨rfl, fun e => by simpa using hfails e⟩

/-- **Errors are exact**, if foreign code leaves the registry alone meanwhile. -/
theorem Complete.exact (hp : p.Complete) (hw : p.first.world.Consistent)
    (hpeopled : p.first.world.Peopled) (hs : p.op.registry? = some s) (hcalm : p.Undisturbed s) :
    p.Exact s := by
  unfold Exact
  split
  · rename_i s' source save hop
    exact hp.exact_insert hw hpeopled hs hcalm hop
  · rename_i s' k save hop
    exact fun key hkey => hp.exact_insertKey hw hpeopled hs hcalm hop hkey
  · rename_i s' probe save hop
    refine hp.exact_probe hw hpeopled hs hcalm (by simp [hop]) (by rw [request, hop]; rfl) ?_ ?_ <;>
      simp [hop, RegistryOp.conclude]
  · rename_i s' probe hop
    refine hp.exact_probe hw hpeopled hs hcalm (by simp [hop]) (by rw [request, hop]; rfl) ?_ ?_ <;>
      simp [hop, RegistryOp.conclude]
  · rename_i s' probe dest hop
    refine hp.exact_probe hw hpeopled hs hcalm (by simp [hop]) (by rw [request, hop]; rfl) ?_ ?_ <;>
      simp [hop, RegistryOp.conclude]
  · trivial

end Performance

end ListenerRegistry
