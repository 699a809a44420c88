import ListenerRegistry.Proofs.Directory
import ListenerRegistry.Proofs.Retaining
import ListenerRegistry.Proofs.Serialization

/-!
# Registries refine maps

As long as every object always answers alike, a registry is a finite map from ids to
objects of which no two are the same, whatever the hashes are and however they
collide. Each operation, in the one turn in which it takes place, does to the map
what its name says, and answers accordingly.
-/

namespace ListenerRegistry

/-! ## What operations do to maps -/

/-- What the ids of every registry stand for. -/
abbrev Directories := Nat → ListenerId → Handle

section

variable (F G : Directories) (s : Nat)

/-- The registry `s` gets an entry on `o` under a new id. If it has one already, the
request is refused. -/
def Admits (o : ObjectId) (answer : Answer) : Prop :=
  (∃ id, (∀ i, F s i ≠ some o) ∧ F s id = none ∧
      G = Function.update F s (Function.update (F s) id (some o)) ∧ answer = .located (some id)) ∨
    ((∃ id, F s id = some o) ∧ G = F ∧ answer = .failed .duplicateListener)

/-- The registry `s` loses its entry on `o`, if it has one. -/
def Expels (o : ObjectId) (answer : Answer) : Prop :=
  (∃ id, F s id = some o ∧ G = Function.update F s (Function.update (F s) id none) ∧
      answer = .withdrawn (some o)) ∨
    ((∀ id, F s id ≠ some o) ∧ G = F ∧ answer = .withdrawn none)

/-- The registry `s` keeps the entries that satisfy the predicate. The others are
counted. -/
def Sieves (keep : ListenerId → Bool) (answer : Answer) : Prop :=
  G = Function.update F s (fun id => if keep id then F s id else none) ∧
    ∃ ids : List ListenerId, ids.Nodup ∧ (∀ id, id ∈ ids ↔ F s id ≠ none ∧ keep id = false) ∧
      answer = .count ids.length

end

/-- The probe is to be had in `v` and is on `o`, and is so still in `w`. Whoever looks
a handle up has borrowed it, so that nobody overwrites it meanwhile. -/
def Probe.On (probe : Probe) (v w : World) (o : ObjectId) : Prop :=
  v.grip? probe ≠ none ∧ probe.target v = some o ∧ probe.target w = some o

/-- **What operations are on maps.** The operation begins in `v`. In the turn in which
it takes place, which starts in `w`, the maps go from `F` to `G`. The objects hash as
`f` says, and a retaining step has `ruled` so about the entries. -/
def RegistryOp.Meets (f : ObjectId → HashOutcome) (v w : World) (F G : Directories)
    (ruled : List (ListenerId × Bool)) (answer : Answer) : RegistryOp → Prop
  | insert s source _ => ∀ o hash, v.obtain? source ≠ none → source.target v = some o →
      f o = .ok hash → Admits F G s o answer
  | insertKey s k _ => ∀ key o, v.key? k = some key → key.handle = some o → Admits F G s o answer
  | find s probe _ =>
      (probe.target v = none → G = F ∧ answer = .located none) ∧
        ∀ o hash, probe.On v w o → f o = .ok hash →
          G = F ∧ ∃ id?, answer = .located id? ∧ ∀ id, id? = some id ↔ F s id = some o
  | contains s probe =>
      (probe.target v = none → G = F ∧ answer = .verdict false) ∧
        ∀ o hash, probe.On v w o → f o = .ok hash →
          G = F ∧ ∃ b, answer = .verdict b ∧ (b = true ↔ ∃ id, F s id = some o)
  | remove s probe _ =>
      (probe.target v = none → G = F ∧ answer = .withdrawn none) ∧
        ∀ o hash, probe.On v w o → f o = .ok hash → Expels F G s o answer
  | get s n => G = F ∧ ∀ id, v.savedId? n = some id → answer = .entry (F s id)
  | removeId s n _ => ∀ id, v.savedId? n = some id →
      G = Function.update F s (Function.update (F s) id none) ∧ answer = .entry (F s id)
  | retain s _ => ∀ keep : ListenerId → Bool, (∀ x ∈ ruled, x.2 = keep x.1) →
      Sieves F G s keep answer
  | clear s => G = Function.update F s (fun _ => none) ∧ answer = .cleared
  | discard s => G = Function.update F s (fun _ => none) ∧ answer = .dropped
  | size s => G = F ∧ ∃ ids : List ListenerId, ids.Nodup ∧ (∀ id, id ∈ ids ↔ F s id ≠ none) ∧
      answer = .size ids.length
  | entries s => G = F ∧ ∃ es : List (ListenerId × Handle), (es.map (·.1)).Nodup ∧
      (∀ id p, (id, p) ∈ es ↔ F s id = p ∧ p ≠ none) ∧ answer = .entries es
  | sameId _ _ => G = F

/-! ## What actions do to maps -/

namespace Roster

variable {f : ObjectId → HashOutcome} {m : Roster} {o : ObjectId} {hash : UInt64}
  {F : Directories} {s : Nat}

theorem update_directory (hF : F s = directory m) : Function.update F s (directory m) = F := by
  rw [← hF, Function.update_eq_self]

theorem admits_of_add (h : Truthful f m) (hF : F s = directory m) (hf : f o = .ok hash) :
    Admits F (Function.update F s (directory (add m ⟨some o, hash⟩).2)) s o
      (Reply.stored (.id (add m ⟨some o, hash⟩).1)) := by
  rcases directory_add h ⟨some o, hash⟩ with ⟨i, hi, hreply, hsame⟩ | ⟨i, hi, hreply, hnone, hnew⟩
  · refine Or.inr ⟨⟨i, ?_⟩, ?_, ?_⟩
    · rw [hF]
      exact (h.idOf?_iff hf).1 hi
    · rw [hsame, update_directory hF]
    · rw [hreply]
      rfl
  · refine Or.inl ⟨i, ?_, ?_, ?_, ?_⟩
    · rw [hF]
      exact (h.idOf?_eq_none_iff hf).1 hi
    · rw [hF, hnone]
    · rw [hnew, hF]
    · rw [hreply]
      rfl

theorem expels_of_withdraw (h : Truthful f m) (hF : F s = directory m) (hf : f o = .ok hash) :
    Expels F (Function.update F s (directory (withdraw m ⟨some o, hash⟩).2)) s o
      (.withdrawn ((withdraw m ⟨some o, hash⟩).1.bind Key.handle)) := by
  by_cases hid : ∃ id, directory m id = some o
  · obtain ⟨id, hid⟩ := hid
    obtain ⟨hkey, hgone⟩ := withdraw_of_mem h hf hid
    refine Or.inl ⟨id, ?_, ?_, ?_⟩
    · rw [hF, hid]
    · rw [hgone, hF]
    · rw [hkey]
      rfl
  · have hnone : ∀ id, directory m id ≠ some o := fun id hid' => hid ⟨id, hid'⟩
    rw [withdraw_of_not_mem h hf hnone]
    refine Or.inr ⟨?_, update_directory hF, rfl⟩
    rw [hF]
    exact hnone

theorem mem_rejected {ruled : List (ListenerId × Bool)} {id : ListenerId} :
    id ∈ Machine.rejected ruled ↔ (id, false) ∈ ruled := by
  simp [Machine.rejected]

theorem directory_strike (m : Roster) (ids : List ListenerId) (id : ListenerId) :
    directory (strike m ids).2 id = if id ∈ ids then none else directory m id := by
  unfold directory
  rw [get?_strike]
  split <;> rfl

/-- A retaining step that has ruled about every entry takes out those that it ruled
against. -/
theorem sieves_of_strike (h : Truthful f m) (hF : F s = directory m)
    {ruled : List (ListenerId × Bool)} (hall : ruled.map (·.1) = m.entries.map (·.1))
    {keep : ListenerId → Bool} (hkeep : ∀ x ∈ ruled, x.2 = keep x.1) :
    Sieves F (Function.update F s (directory (strike m (Machine.rejected ruled)).2)) s keep
      (.count (strike m (Machine.rejected ruled)).1.length) := by
  have hthere (id : ListenerId) : id ∈ ruled.map (·.1) ↔ directory m id ≠ none := by
    rw [hall, h.mem_ids_iff]
  have hmem (id : ListenerId) :
      id ∈ Machine.rejected ruled ↔ directory m id ≠ none ∧ keep id = false := by
    rw [mem_rejected, ← hthere, List.mem_map]
    constructor
    · intro hid
      exact ⟨⟨_, hid, rfl⟩, (hkeep _ hid).symm⟩
    · rintro ⟨⟨⟨id, b⟩, hid, rfl⟩, hfalse⟩
      have hb : b = keep id := hkeep _ hid
      rwa [← hfalse, ← hb]
  have hnodup : (Machine.rejected ruled).Nodup := by
    have hsub : (Machine.rejected ruled).Sublist (ruled.map (·.1)) := List.filter_sublist.map _
    rw [hall] at hsub
    exact hsub.nodup m.nodup_ids
  refine ⟨?_, Machine.rejected ruled, hnodup, fun id => ?_, ?_⟩
  · congr 1
    funext id
    rw [directory_strike, hF]
    cases hk : keep id with
    | true => simp [hmem, hk]
    | false =>
      by_cases hid : directory m id = none
      · simp [hid]
      · simp [hmem, hk, hid]
  · rw [hF]
    exact hmem id
  · have hpresent : ∀ id ∈ Machine.rejected ruled, m.get? id ≠ none := fun id hid =>
      fun hnone => ((hmem id).1 hid).1 (h.directory_eq_none_iff.2 hnone)
    have hlength := congrArg List.length (strike_fst hnodup hpresent)
    rw [List.length_map] at hlength
    rw [hlength]

end Roster

/-! ## What operations come to -/

namespace RegistryOp

variable {f : ObjectId → HashOutcome} {op : RegistryOp} {v w : World} {asked : List ListenerId}
  {ruled : List (ListenerId × Bool)}

/-- The maps after an action. -/
theorem directories_of_rosters {w w' : World} {s : Nat} {m : Roster}
    (h : w'.rosters = fun i => if i = s then m else w.rosters i) :
    w'.directories = Function.update w.directories s (Roster.directory m) := by
  funext i
  simp only [World.directories, h, Function.update_apply]
  split <;> rfl

theorem Hashes.of_subject {o : ObjectId} {outcome : HashOutcome} (h : op.Hashes v w outcome)
    (hf : ∀ o, w.hashOutcome o = f o) (ho : op.subject v = some o) : f o = outcome := by
  obtain ⟨o', ho', hout⟩ := h
  obtain rfl : o = o' := Option.some.inj (ho.symm.trans ho')
  rw [← hf, hout]

/-- Where a lookup takes place, there is something to look for, and its hash is the one in use. -/
theorem lookup_of_hashes (op : RegistryOp) {probe : Probe} {A : Prop} {B : ObjectId → Prop}
    {hash : UInt64} (hsubject : op.subject v = probe.target v) (hhash : op.Hashes v w (.ok hash))
    (hf : ∀ o, w.hashOutcome o = f o) (hB : ∀ o, probe.On v w o → f o = .ok hash → B o) :
    (probe.target v = none → A) ∧ ∀ o hash', probe.On v w o → f o = .ok hash' → B o := by
  refine ⟨fun hnull => ?_, fun o _ hon _ => ?_⟩
  · obtain ⟨o, ho, -⟩ := hhash
    cases (hsubject.trans hnull).symm.trans ho
  · exact hB o hon (hhash.of_subject hf (hsubject.trans hon.2.1))

/-- **An operation that takes its action does to the maps what it says.** -/
theorem meets_of_performs {x : Act} (hop : op.Performs v w asked ruled x)
    (hretain : ∀ s keep, op ≠ .retain s keep)
    (hreply : x.reply = (Roster.apply (w.rosters x.registry) x.action).1)
    (hw : ∀ s, Roster.Truthful f (w.rosters s)) (hf : ∀ o, w.hashOutcome o = f o)
    (hv : ∀ r k, v.key? r = some k → k.Fits f) :
    op.Meets f v w w.directories
      (Function.update w.directories x.registry
        (Roster.directory (Roster.apply (w.rosters x.registry) x.action).2))
      ruled (op.conclude x.reply) := by
  obtain ⟨s, action, reply⟩ := x
  obtain rfl : reply = (Roster.apply (w.rosters s) action).1 := hreply
  have hsame : Function.update w.directories s (Roster.directory (w.rosters s)) = w.directories :=
    Roster.update_directory rfl
  cases op with
  | insert s' source save =>
    obtain ⟨rfl, hash, hhash, rfl⟩ := hop
    intro o hash' _ htarget hf'
    have hhash' : f o = .ok hash := hhash.of_subject hf htarget
    rw [htarget]
    exact Roster.admits_of_add (hw s) rfl hhash'
  | insertKey s' k save =>
    obtain ⟨rfl, key, hkey, rfl⟩ := hop
    intro key' o hkey' hhandle
    obtain rfl : key = key' := Option.some.inj (hkey.symm.trans hkey')
    obtain ⟨handle, hash⟩ := key
    obtain rfl : handle = some o := hhandle
    exact Roster.admits_of_add (hw s) rfl (hv k _ hkey)
  | find s' probe save =>
    obtain ⟨rfl, hash, hhash, rfl⟩ := hop
    refine lookup_of_hashes (find s probe save) rfl hhash hf fun o hon hhash' => ?_
    refine ⟨hsame, _, rfl, fun id => ?_⟩
    rw [hon.2.2]
    exact (hw s).idOf?_iff hhash'
  | contains s' probe =>
    obtain ⟨rfl, hash, hhash, rfl⟩ := hop
    refine lookup_of_hashes (contains s probe) rfl hhash hf fun o hon hhash' => ?_
    refine ⟨hsame, _, rfl, ?_⟩
    rw [hon.2.2, Option.isSome_iff_exists]
    exact exists_congr fun id => (hw s).idOf?_iff hhash'
  | remove s' probe dest =>
    obtain ⟨rfl, hash, hhash, rfl⟩ := hop
    refine lookup_of_hashes (remove s probe dest) rfl hhash hf fun o hon hhash' => ?_
    rw [hon.2.2]
    exact Roster.expels_of_withdraw (hw s) rfl hhash'
  | get s' n =>
    obtain ⟨rfl, id, hid, rfl⟩ := hop
    refine ⟨hsame, fun id' hid' => ?_⟩
    obtain rfl : id = id' := Option.some.inj (hid.symm.trans hid')
    rfl
  | removeId s' n dest =>
    obtain ⟨rfl, id, hid, rfl⟩ := hop
    intro id' hid'
    obtain rfl : id = id' := Option.some.inj (hid.symm.trans hid')
    refine ⟨congrArg _ (Roster.directory_take _ id), ?_⟩
    show Answer.entry ((Roster.take (w.rosters s) id).1.bind Key.handle) = _
    rw [Roster.take_fst]
    rfl
  | retain s' keep => exact absurd rfl (hretain s' keep)
  | clear s' =>
    obtain ⟨rfl, rfl⟩ := hop
    exact ⟨congrArg _ (Roster.directory_drain _), rfl⟩
  | discard s' =>
    obtain ⟨rfl, rfl⟩ := hop
    exact ⟨congrArg _ Roster.directory_empty, rfl⟩
  | size s' =>
    obtain ⟨rfl, rfl⟩ := hop
    refine ⟨hsame, (w.rosters s).entries.map (·.1), (w.rosters s).nodup_ids,
      fun id => (hw s).mem_ids_iff, ?_⟩
    rw [List.length_map]
    rfl
  | entries s' =>
    obtain ⟨rfl, rfl⟩ := hop
    exact ⟨hsame, Roster.listing (w.rosters s), Roster.nodup_listing _,
      fun id p => (hw s).mem_listing, rfl⟩
  | sameId i j => exact hop.elim

/-- A handle on null is always to be had. -/
theorem grip?_of_null {probe : Probe} (h : probe.target v = none) : v.grip? probe ≠ none := by
  cases probe with
  | fresh target =>
    obtain rfl : target = none := h
    exact Option.some_ne_none _
  | register r => exact Option.some_ne_none _

/-- Where a lookup declines, there is nothing to look for, or no hash. -/
theorem lookup_of_declines (op : RegistryOp) {probe : Probe} {A : Prop} {B : ObjectId → Prop}
    (hsubject : op.subject v = probe.target v)
    (h : v.grip? probe = none ∨ (probe.target v = none ∧ A) ∨ ∃ e, op.Hashes v w (.error e))
    (hf : ∀ o, w.hashOutcome o = f o) :
    (probe.target v = none → A) ∧ ∀ o hash, probe.On v w o → f o = .ok hash → B o := by
  rcases h with hdead | ⟨hnull, hA⟩ | ⟨e, hfail⟩
  · exact ⟨fun hnull => absurd hdead (grip?_of_null hnull), fun o hash hon _ => absurd hdead hon.1⟩
  · refine ⟨fun _ => hA, fun o hash hon _ => ?_⟩
    cases hnull.symm.trans hon.2.1
  · refine ⟨fun hnull => ?_, fun o hash hon hhash => ?_⟩
    · obtain ⟨o, ho, -⟩ := hfail
      cases (hsubject.trans hnull).symm.trans ho
    · cases hhash.symm.trans (hfail.of_subject hf (hsubject.trans hon.2.1))

/-- An operation that declines has no claim on the maps. -/
theorem meets_of_declines {answer : Answer} (hop : op.Declines v w answer)
    (hf : ∀ o, w.hashOutcome o = f o) :
    op.Meets f v w w.directories w.directories ruled answer := by
  cases op with
  | insert s source save =>
    intro o hash hobtain htarget hhash
    cases answer with
    | dead => exact absurd hop hobtain
    | failed e =>
      rcases hop with ⟨-, hnull⟩ | hfail
      · cases hnull.symm.trans htarget
      · cases hhash.symm.trans (hfail.of_subject hf htarget)
    | _ => exact hop.elim
  | insertKey s k save =>
    intro key o hkey hhandle
    cases answer with
    | noKey => cases hkey.symm.trans hop
    | failed e =>
      obtain ⟨-, hnull⟩ := hop
      rw [hkey] at hnull
      cases hnull.symm.trans hhandle
    | _ => exact hop.elim
  | find s probe save =>
    refine lookup_of_declines (find s probe save) rfl ?_ hf
    cases answer with
    | dead => exact Or.inl hop
    | failed e => exact Or.inr (Or.inr ⟨e, hop⟩)
    | located found =>
      cases found with
      | none => exact Or.inr (Or.inl ⟨hop, rfl, rfl⟩)
      | some => exact hop.elim
    | _ => exact hop.elim
  | contains s probe =>
    refine lookup_of_declines (contains s probe) rfl ?_ hf
    cases answer with
    | dead => exact Or.inl hop
    | failed e => exact Or.inr (Or.inr ⟨e, hop⟩)
    | verdict b =>
      cases b with
      | false => exact Or.inr (Or.inl ⟨hop, rfl, rfl⟩)
      | true => exact hop.elim
    | _ => exact hop.elim
  | remove s probe dest =>
    refine lookup_of_declines (remove s probe dest) rfl ?_ hf
    cases answer with
    | dead => exact Or.inl hop
    | failed e => exact Or.inr (Or.inr ⟨e, hop⟩)
    | withdrawn found =>
      cases found with
      | none => exact Or.inr (Or.inl ⟨hop, rfl, rfl⟩)
      | some => exact hop.elim
    | _ => exact hop.elim
  | get s n =>
    refine ⟨rfl, fun id hid => ?_⟩
    cases answer with
    | noId => cases hid.symm.trans hop
    | _ => exact hop.elim
  | removeId s n dest =>
    intro id hid
    cases answer with
    | noId => cases hid.symm.trans hop
    | _ => exact hop.elim
  | sameId i j => rfl
  | _ => exact hop.elim

end RegistryOp

/-! ## The turn in which an operation takes place -/

namespace Machine

/-- From the turn with the action on, the answer is certain. -/
theorem Run.concludes {e c : Machine} {ms : List Machine} (h : Run e (e :: ms) c)
    (he : e.world.Consistent) {t : Job} {rest : List Job} (hjobs : e.jobs = t :: rest) {s : Nat}
    {a : Action} (hact : t.action? e.world = some (s, a)) (hc : c.jobs = rest)
    (hms : ∀ x ∈ ms, rest.length < x.jobs.length) :
    ∃ d after, ms = d :: after ∧ Turn e d ∧
      (d.world.rosters = fun i => if i = s then (Roster.apply (e.world.rosters s) a).2 else
        e.world.rosters i) ∧
      (∀ x ∈ d :: after, ∃ above, x.jobs =
        above ++ .answer (t.conclude (Roster.apply (e.world.rosters s) a).1) :: rest) ∧
      c.world.answer = t.conclude (Roster.apply (e.world.rosters s) a).1 := by
  cases h with
  | @cons _ d _ _ hturn hrun =>
    have hrosters := (hturn.rosters_of_act he (act?_of_action he hjobs hact)).2
    obtain ⟨out, r, -, -, htakes, rfl⟩ := hturn.takes he hjobs hact
    obtain ⟨hs, hout⟩ := htakes.jobs
    have hbelow : out.jobs ++ rest = hs.map .release ++
        .answer (t.conclude (Roster.apply (e.world.rosters s) a).1) :: rest := by
      rw [hout, List.append_assoc]
      rfl
    obtain ⟨⟨after, rfl⟩, hcertain, hanswer⟩ := hrun.answers hbelow hc hms
    exact ⟨_, after, rfl, hturn, hrosters, hcertain, hanswer⟩

end Machine

/-! ## Performances -/

/-- An operation on a registry and the turns that perform it: those of `during`, from
the machine `first` to the machine `last`. Below it wait the jobs `rest`. -/
structure Performance where
  op : RegistryOp
  rest : List Job
  first : Machine
  during : List Machine
  last : Machine

namespace Performance

open Machine

/-- The turns are those of a run, and they end where the operation does. -/
structure Complete (p : Performance) : Prop where
  begins : p.first.jobs = .perform (.op (.registry p.op)) :: p.rest
  run : Run p.first p.during p.last
  ends : p.last.jobs = p.rest
  within : ∀ e ∈ p.during, p.rest.length < e.jobs.length

/-- What the operation answers. -/
def answer (p : Performance) : Answer := p.last.world.answer

/-- What a retaining step decides about the entries. -/
def rulings (p : Performance) : List (ListenerId × Bool) :=
  Machine.rulings p.rest (p.during ++ [p.last])

/-- The operation takes place in the turn from `e` to `d`. No other turn of its own acts
on a registry. -/
structure TakesPlace (p : Performance) (before : List Machine) (e d : Machine)
    (after : List Machine) : Prop where
  during : p.during = before ++ e :: d :: after
  own : ∃ t, e.jobs = t :: p.rest
  before : ∀ x ∈ before, (∃ t, x.jobs = t :: p.rest) → x.act? = none
  after : ∀ x ∈ d :: after, (∃ t, x.jobs = t :: p.rest) → x.act? = none

variable {p : Performance}

/-- In a turn of the operation itself, nothing is above the job that goes on with it. -/
theorem eq_nil_of_own {x : Machine} {above : List Job} {t u : Job}
    (hjobs : x.jobs = above ++ u :: p.rest) (hown : x.jobs = t :: p.rest) : above = [] := by
  have hlength := congrArg List.length (hjobs.symm.trans hown)
  simp only [List.length_append, List.length_cons] at hlength
  exact List.length_eq_zero_iff.1 (by omega)

/-- Where only the answer is left, the turns of the operation itself act on nothing. -/
theorem act?_of_answer {x : Machine} {above : List Job} {a : Answer}
    (hjobs : x.jobs = above ++ .answer a :: p.rest) (hown : ∃ t, x.jobs = t :: p.rest) :
    x.act? = none := by
  obtain ⟨t, ht⟩ := hown
  rw [eq_nil_of_own hjobs ht] at hjobs
  exact act?_of_no_action hjobs rfl

/-- From the turn on in which the operation acts, it decides nothing. -/
theorem rulings_eq {before after : List Machine} {e : Machine} {t : Job} {x : Nat × Action}
    (hduring : p.during = before ++ e :: after) (hjobs : e.jobs = t :: p.rest)
    (hact : t.action? e.world = some x)
    (hafter : ∀ y ∈ after, ∃ above answer, y.jobs = above ++ .answer answer :: p.rest) :
    p.rulings = Machine.rulings p.rest (before ++ [e]) := by
  have hquiet : ∀ y ∈ e :: after, ∀ z, ruling? p.rest y z = none := by
    refine List.forall_mem_cons.2 ⟨ruling?_of_action hjobs hact, fun y hy => ?_⟩
    obtain ⟨above, answer, hy⟩ := hafter y hy
    exact ruling?_of_answer hy
  have hsplit : p.during ++ [p.last] = before ++ e :: (after ++ [p.last]) := by simp [hduring]
  rw [rulings, hsplit, rulings_append, ← List.cons_append, rulings_eq_nil hquiet, List.append_nil]

theorem Complete.serialized (hp : p.Complete) (hw : p.first.world.Consistent) :
    Serialized p.op p.first.world [] [] p.rest p.during p.last :=
  hp.run.serialized_of_stage hw hp.begins ⟨rfl, rfl, rfl, rfl⟩ hp.ends hp.within

/-- **An operation that is performed takes place.** It settles in a turn of its own. -/
theorem Complete.takesPlace (hp : p.Complete) (hw : p.first.world.Consistent) :
    ∃ before e d after, p.TakesPlace before e d after ∧ Turn e d ∧
      Settles p.op p.first.world (questions p.rest before) p.rulings e p.answer := by
  obtain ⟨before, after, e, d, closing, _, hduring, hbefore, hown, hsettles, -, -, hafter, rfl⟩ :=
    hp.serialized hw
  have hturn : Turn e d := (hduring ▸ hp.run).split.2.uncons.1
  refine ⟨before, e, d, after, ⟨hduring, hown, ?_, ?_⟩, hturn, ?_⟩
  · rintro x hx ⟨t, ht⟩
    obtain ⟨above, u, hjobs, -, hidle⟩ := hbefore x hx
    exact hidle (eq_nil_of_own hjobs ht)
  · intro x hx hown
    obtain ⟨above, hjobs⟩ := hafter x hx
    exact act?_of_answer hjobs hown
  · rcases hsettles with ⟨x, hx, hsettles⟩ | hdeclines
    · obtain ⟨t, ht⟩ := hown
      obtain ⟨sa, haction⟩ : ∃ sa, t.action? e.world = some sa := by
        refine Option.ne_none_iff_exists'.1 fun hnone => ?_
        cases hx.symm.trans (act?_of_no_action ht hnone)
      rw [rulings_eq hduring ht haction fun y hy => (hafter y hy).imp fun _ hy => ⟨_, hy⟩]
      exact Or.inl ⟨x, hx, hsettles⟩
    · exact Or.inr hdeclines

/-- A retaining step begins with all slots ahead. -/
theorem Complete.opens (hp : p.Complete) {s : Nat} {keep : Keep} (hop : p.op = .retain s keep) :
    ∃ (ms : List Machine) (sc : Screening), p.during = p.first :: ms ∧
      Run ⟨p.first.world, .screen sc :: p.rest, none⟩ ms p.last ∧
      (Job.screen sc).Sifts s (p.first.world.registry s) [] := by
  obtain ⟨op, rest, m, during, c⟩ := p
  obtain rfl : op = .retain s keep := hop
  have hbegins : m.jobs = .perform (.op (.registry (.retain s keep))) :: rest := hp.begins
  have hrun : Run m during c := hp.run
  cases hrun with
  | nil =>
    have hends : m.jobs = rest := hp.ends
    simp [hbegins] at hends
  | cons hturn hrun =>
    obtain rfl := hturn.eq_of_run hbegins rfl rfl rfl
    refine ⟨_, _, rfl, hrun, rfl, rfl, ?_⟩
    have hvisit : (m.world.registry s).slotNumbers.filterMap (m.world.registry s).entryAt? =
        (m.world.registry s).entries := (SlotTable.entries_eq_filterMap _).symm
    simp [Screening.ahead, hvisit]

/-- The first turn of an operation asks nothing and decides nothing. -/
theorem Complete.begins_idle (hp : p.Complete) (x : Machine) (xs : List Machine) :
    questions p.rest (p.first :: x :: xs) = questions p.rest (x :: xs) ∧
      Machine.rulings p.rest (p.first :: x :: xs) = Machine.rulings p.rest (x :: xs) := by
  constructor
  · have hnone : p.first.question? = none := by simp only [question?, hp.begins]
    rw [questions, List.filterMap_cons_none (by simp [hnone])]
    rfl
  · rw [Machine.rulings, ruling?_of_rules? hp.begins (fun _ => rfl) x]
    rfl

/-- **The step has decided** about every entry of the registry `s` when the machine `e` is
reached, and it has asked about every entry for that. -/
structure Decided (p : Performance) (s : Nat) (before : List Machine) (e : Machine)
    (after : List Machine) (sc : Screening) : Prop where
  during : p.during = before ++ e :: after
  jobs : e.jobs = .screen sc :: p.rest
  registry : sc.registry = s
  visited : sc.pending = []
  idle : ∀ x ∈ before, (∃ t, x.jobs = t :: p.rest) → x.act? = none
  untouched : ∀ x ∈ before ++ [e], x.world.registry s = p.first.world.registry s
  asked : questions p.rest (before ++ [e]) = (p.first.world.registry s).entries.map (·.1)
  ruled : (Machine.rulings p.rest (before ++ [e])).map (·.1) =
    (p.first.world.registry s).entries.map (·.1)
  doomed : sc.doomed.reverse = rejected (Machine.rulings p.rest (before ++ [e]))

/-- **A retaining step that is left in peace** asks about every entry and decides about it,
and then there is nothing left to visit. -/
theorem Complete.decides (hp : p.Complete) {s : Nat} {keep : Keep} (hop : p.op = .retain s keep)
    (hw : p.first.world.Consistent) (hpeopled : p.first.world.Peopled)
    (hrespect : ∀ e ∈ p.during, e.Respects p.rest) :
    ∃ before e after sc, p.Decided s before e after sc := by
  obtain ⟨ms, sc₀, hduring, hrun, hstart⟩ := hp.opens hop
  have hlonger : ∀ e ∈ ms, p.rest.length < e.jobs.length :=
    fun e he => hp.within e (by simp [hduring, he])
  have hcalm : ∀ e ∈ ms, e.Respects p.rest := fun e he => hrespect e (by simp [hduring, he])
  obtain ⟨before, e, after, sc, rfl, hidle, he, hpending, hkept, ⟨hs, hdoomed, hall⟩, hasked⟩ :=
    hrun.sifts hw rfl rfl (hpeopled s) hstart hp.ends hlonger hcalm
  obtain ⟨x, xs, hx⟩ := List.exists_cons_of_ne_nil (show before ++ [e] ≠ [] by simp)
  obtain ⟨hquestions, hrulings⟩ := hp.begins_idle x xs
  rw [← hx] at hquestions hrulings
  have hall : (Machine.rulings p.rest (before ++ [e])).map (·.1) =
      (p.first.world.registry s).entries.map (·.1) := by
    simpa [Screening.ahead, hpending] using hall
  refine ⟨p.first :: before, e, after, sc, hduring, he, hs, hpending, ?_, ?_, ?_, ?_, ?_⟩
  · refine List.forall_mem_cons.2 ⟨fun _ => act?_of_no_action hp.begins ?_, hidle⟩
    rw [hop]
    rfl
  · exact List.forall_mem_cons.2 ⟨rfl, hkept⟩
  · rw [List.cons_append, hquestions, ← hall]
    exact hasked.symm
  · rw [List.cons_append, hrulings]
    exact hall
  · rw [List.cons_append, hrulings]
    exact hdoomed

section

variable {s : Nat} {before after : List Machine} {e : Machine} {sc : Screening}

theorem Decided.run (h : p.Decided s before e after sc) (hp : p.Complete) :
    Run p.first before e ∧ Run e (e :: after) p.last :=
  (h.during ▸ hp.run).split

theorem Decided.within (h : p.Decided s before e after sc) (hp : p.Complete) :
    ∀ x ∈ after, p.rest.length < x.jobs.length :=
  fun x hx => hp.within x (by simp [h.during, hx])

theorem Decided.consistent (h : p.Decided s before e after sc) (hp : p.Complete)
    (hw : p.first.world.Consistent) : e.world.Consistent :=
  ((h.run hp).1.preserves_consistent hw).1

/-- What is left to do is to take the rejected entries out. -/
theorem Decided.action? (h : p.Decided s before e after sc) :
    (Job.screen sc).action? e.world =
      some (s, .strike (rejected (Machine.rulings p.rest (before ++ [e])))) := by
  simp only [Job.action?, h.visited, if_true, h.registry, h.doomed]

theorem Decided.slots_eq (h : p.Decided s before e after sc) :
    e.world.rosters s = (p.first.world.registry s).slots :=
  congrArg Registry.slots (h.untouched e (by simp))

end

/-- **A retaining step that is left in peace** rules on every entry and takes out those
that it ruled against, all in one turn. -/
theorem Complete.sieves (hp : p.Complete) {s : Nat} {keep : Keep} (hop : p.op = .retain s keep)
    (hw : p.first.world.Consistent) (hpeopled : p.first.world.Peopled)
    (hrespect : ∀ e ∈ p.during, e.Respectful) :
    ∃ before e d after, p.TakesPlace before e d after ∧
      p.rulings.map (·.1) = (e.world.rosters s).entries.map (·.1) ∧
      (d.world.rosters = fun i => if i = s then
        (Roster.strike (e.world.rosters s) (rejected p.rulings)).2 else e.world.rosters i) ∧
      p.answer = .count (Roster.strike (e.world.rosters s) (rejected p.rulings)).1.length := by
  obtain ⟨before, e, after, sc, hdecided⟩ := hp.decides hop hw hpeopled
    fun e he => respects_of_respectful (hrespect e he) p.rest
  obtain ⟨d, after, rfl, -, hrosters, hcertain, hanswer⟩ := (hdecided.run hp).2.concludes
    (hdecided.consistent hp hw) hdecided.jobs hdecided.action? hp.ends (hdecided.within hp)
  rw [rulings_eq hdecided.during hdecided.jobs hdecided.action?
    fun x hx => (hcertain x hx).imp fun _ hx => ⟨_, hx⟩]
  refine ⟨before, e, d, after, ⟨hdecided.during, ⟨_, hdecided.jobs⟩, hdecided.idle, ?_⟩, ?_,
    hrosters, hanswer⟩
  · intro x hx hown
    obtain ⟨above, hjobs⟩ := hcertain x hx
    exact act?_of_answer hjobs hown
  · rw [hdecided.slots_eq]
    exact hdecided.ruled

end Performance

/-! ## Whole runs -/

/-- The registry `s` is a finite map from ids to objects, no two of them the same. The
list of its entries names each of them once, and its size is their number. -/
structure World.Charted (w : World) (s : Nat) : Prop where
  injective : ∀ id id' o, w.directories s id = some o → w.directories s id' = some o → id = id'
  listed : ∀ id p, (id, p) ∈ Roster.listing (w.rosters s) ↔ w.directories s id = p ∧ p ≠ none
  listed_once : ((Roster.listing (w.rosters s)).map (·.1)).Nodup
  size : (w.registry s).size = (Roster.listing (w.rosters s)).length

theorem World.Keyed.charted {f : ObjectId → HashOutcome} {w : World} (h : w.Keyed f)
    (hw : w.Consistent) (hpeopled : w.Peopled) (s : Nat) : w.Charted s where
  injective _ _ _ := (h.truthful hw hpeopled s).injective
  listed _ _ := (h.truthful hw hpeopled s).mem_listing
  listed_once := Roster.nodup_listing _
  size := by
    rw [Roster.listing, List.length_map]
    exact (hw s).slots.size_eq

namespace Machine

variable {objects : List ForeignObject} {steps : List Step} {ms : List Machine} {m : Machine}

/-- **Registries refine maps.** If every object always answers alike, then in every
state that a run can reach every registry is a map in which no object occurs twice.
And every operation that is performed from there takes place in one turn, in which
it does to the maps what it should and finds its answer. -/
theorem registries_refine_maps (h : Run (session objects steps) ms m)
    (hsteady : ∀ a ∈ ms, a.world.Steady objects) :
    (∀ a ∈ m :: ms, ∀ s, a.world.Charted s) ∧
      ∀ p : Performance, p.first = m → p.Complete → (∀ e ∈ p.during, e.world.Steady objects) →
        (∀ s keep, p.op = .retain s keep → ∀ e ∈ p.during, e.Respectful) →
        ∃ before e d after, p.TakesPlace before e d after ∧
          p.op.Meets (World.init objects).hashOutcome m.world e.world e.world.directories
            d.world.directories p.rulings p.answer := by
  constructor
  · intro a ha s
    exact (h.keyed hsteady a ha).charted (h.consistent_of_mem ha) (h.peopled a ha) s
  · rintro p rfl hp hduring hrespect
    have hw : p.first.world.Consistent := h.consistent.1
    have hrun : Run (session objects steps) (ms ++ p.during) p.last := h.append hp.run
    have hall : ∀ a ∈ ms ++ p.during, a.world.Steady objects :=
      List.forall_mem_append.2 ⟨hsteady, hduring⟩
    -- where the operation takes place, everything fits
    have htruthful {e : Machine} (he : e ∈ p.during) (s : Nat) :
        Roster.Truthful (World.init objects).hashOutcome (e.world.rosters s) := by
      have hmem : e ∈ p.last :: (ms ++ p.during) := by simp [he]
      exact (hrun.keyed hall e hmem).truthful (hrun.consistent_of_mem hmem)
        (hrun.peopled e hmem) s
    by_cases hretain : ∃ s keep, p.op = .retain s keep
    · obtain ⟨s, keep, hop⟩ := hretain
      obtain ⟨before, e, d, after, hplace, hruled, hrosters, hanswer⟩ :=
        hp.sieves hop hw (h.peopled p.first List.mem_cons_self) (hrespect s keep hop)
      refine ⟨before, e, d, after, hplace, ?_⟩
      have he : e ∈ p.during := by simp [hplace.during]
      rw [hop, hanswer, RegistryOp.directories_of_rosters hrosters]
      exact fun stay hstay => Roster.sieves_of_strike (htruthful he s) rfl hruled hstay
    · obtain ⟨before, e, d, after, hplace, hturn, hsettles⟩ := hp.takesPlace hw
      refine ⟨before, e, d, after, hplace, ?_⟩
      have he : e ∈ p.during := by simp [hplace.during]
      have hmem : e ∈ p.last :: (ms ++ p.during) := by simp [he]
      have hf := (hall e (by simp [he])).hashOutcome (hrun.balanced e hmem)
      rcases hsettles with ⟨x, hx, hop, hreply, hanswer⟩ | ⟨hx, hop⟩
      · rw [hanswer, RegistryOp.directories_of_rosters
          (hturn.rosters_of_act (hrun.consistent_of_mem hmem) hx).2]
        exact RegistryOp.meets_of_performs hop (fun s keep hop => hretain ⟨s, keep, hop⟩) hreply
          (htruthful he) hf fun r k hk =>
            (h.keyed hsteady p.first List.mem_cons_self).shelved k (Or.inl ⟨r, hk⟩)
      · have hsame : d.world.directories = e.world.directories := by
          unfold World.directories
          rw [hturn.rosters_of_none (hrun.consistent_of_mem hmem) hx]
        rw [hsame]
        exact RegistryOp.meets_of_declines hop hf

/-- Two objects with one hash. -/
def twinObjects : List ForeignObject :=
  [.plain 0x1000 1 (.always (.fixed 7)), .plain 0x2000 1 (.always (.fixed 7))]

/-- Registers both objects and retains the second one. -/
def twinSteps : List Step :=
  [.op (.registry (.insert 0 (.fresh (some 0)) none)),
    .op (.registry (.insert 0 (.fresh (some 1)) none)),
    .op (.registry (.retain 0 (.rule (.among [1]))))]

/-- The machine that is about to retain the second object. -/
def twins : Machine := (session twinObjects twinSteps).turns still 8

/-- How it does so. -/
def parting : Performance :=
  ⟨.retain 0 (.rule (.among [1])), [], twins, visited still 6 twins, twins.turns still 6⟩

/-- Twins are told apart: the retaining step takes out the first object and keeps the
second one under its id. -/
theorem registries_refine_maps_for_twins :
    twins.world.Charted 0 ∧ twins.world.directories 0 ⟨2, 1⟩ = some 1 ∧
      ∃ before e d after, parting.TakesPlace before e d after ∧
        Sieves e.world.directories d.world.directories 0 (fun id => id == ⟨2, 1⟩)
          parting.answer := by
  have hrun := run_visited still 8 (session twinObjects twinSteps)
  have hcomplete : parting.Complete := ⟨rfl, run_visited still 6 twins, rfl, by decide +kernel⟩
  obtain ⟨hcharted, hperformed⟩ := registries_refine_maps hrun (by decide +kernel)
  obtain ⟨before, e, d, after, hplace, hmeets⟩ := hperformed parting rfl hcomplete
    (by decide +kernel) fun _ _ _ => by decide +kernel
  exact ⟨hcharted twins List.mem_cons_self 0, by decide +kernel, before, e, d, after, hplace,
    hmeets _ (by decide +kernel)⟩

end Machine

end ListenerRegistry
